import AsyncLogStorage.ForStd.Transition
import AsyncLogStorage.Native.Buffer

/-!
# The asynchronous log worker

`mylog::AsyncWorker` of `AsyncWorker.hpp` as a transition system over the worker
thread (`ThreadEntry`), any number of producers (`Push`) and one caller of `Stop`.

* A section under `mutex_` is one step. Outside it every read or write of shared
  state is a step of its own.
* A waiter sleeps until it is notified and then evaluates its predicate again;
  there are no spurious wake-ups. A notification that finds nobody asleep is lost.
* `notify_one` on `cond_consumer_` comes after `Push` has released the mutex, so
  a producer stands at `notify` until it has sent it.
-/

namespace Mylog

inductive AsyncType where
  | asyncSafe
  | asyncUnsafe
deriving DecidableEq, Repr

namespace AsyncWorker

/-- Where the worker thread is in `ThreadEntry`. -/
inductive WorkerPc where
  /-- At `while (!stop_)`. -/
  | loopHead
  /-- In the loop body, before its first look at the wait predicate. -/
  | locking
  /-- Blocked in `cond_consumer_.wait`. -/
  | asleep
  /-- Notified, before it looks at the predicate again. -/
  | woken
  /-- The buffers are swapped and the mutex is free; `callback_` comes next. -/
  | callback
  /-- Before `buffer_consumer_.Reset()`. -/
  | reset
  /-- Before the read of `stop_` in the last check of the loop body. -/
  | checkStop
  /-- Before `buffer_productor_.IsEmpty()` in that check. -/
  | checkEmpty
  | exited
deriving DecidableEq, Repr

/-- Where a producer thread is in `Push`. -/
inductive ProducerPc where
  | idle
  /-- Blocked in `cond_productor_.wait` with the record it wants to write. -/
  | asleep (data : Bytes)
  /-- Notified, before it looks at the predicate again. -/
  | woken (data : Bytes)
  /-- The record is written and the mutex free; `cond_consumer_.notify_one()` comes next. -/
  | notify
deriving DecidableEq, Repr

/-- Where the caller of `Stop` is. -/
inductive StopPc where
  | notCalled
  /-- `stop_` is set; `cond_consumer_.notify_all()` comes next. -/
  | notify
  /-- Before `thread_.join()` returns. -/
  | join
  | returned
deriving DecidableEq, Repr

structure State where
  productor : Buffer
  consumer : Buffer
  producers : List ProducerPc
  worker : WorkerPc
  stop : Bool
  stopCaller : StopPc
  /-- The records that a `Push` wrote, with their producers, in lock order. -/
  accepted : List (Nat × Bytes)
  /-- Those of them that were written before `stop_` was set. -/
  acceptedBeforeStop : List (Nat × Bytes)
  /-- The bytes handed to `callback_`. -/
  flushed : Bytes
deriving DecidableEq, Repr

inductive Action where
  /-- Producer `i` calls `Push` and runs its section under the mutex. -/
  | push (i : Nat) (data : Bytes)
  /-- Producer `i` was notified in `cond_productor_.wait` and holds the mutex again. -/
  | wake (i : Nat)
  /-- Producer `i` sends `cond_consumer_.notify_one()` and returns from `Push`. -/
  | notifyConsumer (i : Nat)
  /-- The next step of `ThreadEntry`. Where it sends `cond_productor_.notify_one()`,
      the producer that wakes up is `sel`. -/
  | worker (sel : Nat)
  /-- `stop_ = true` in `Stop`. -/
  | stopSet
  /-- `cond_consumer_.notify_all()` in `Stop`. -/
  | stopNotify
  /-- `thread_.join()` in `Stop`. -/
  | stopJoin
deriving DecidableEq, Repr

/-- What a notification on `cond_consumer_` does to the only thread that waits there. -/
def WorkerPc.notified : WorkerPc → WorkerPc
  | .asleep => .woken
  | pc => pc

def ProducerPc.isAsleep : ProducerPc → Bool
  | .asleep _ => true
  | _ => false

/-- `cond_productor_.notify_one()`: one sleeper wakes up, if there is one. -/
def notifyOneProductor (ps : List ProducerPc) (sel : Nat) : Option (List ProducerPc) :=
  if ps.any ProducerPc.isAsleep then
    match ps[sel]? with
    | some (.asleep data) => some (ps.set sel (.woken data))
    | _ => none
  else
    some ps

/-- `buffer_productor_.Push(data, len)` and the unlock after it. An exception from
    `resize` leaves `Push` with nothing written and no notification sent. -/
def write (cfg : LogConfig) (s : State) (i : Nat) (data : Bytes) : State :=
  match s.productor.push cfg data with
  | none => { s with producers := s.producers.set i .idle }
  | some b =>
    { s with
      productor := b
      producers := s.producers.set i .notify
      accepted := s.accepted ++ [(i, data)]
      acceptedBeforeStop :=
        if s.stop then s.acceptedBeforeStop else s.acceptedBeforeStop ++ [(i, data)] }

/-- The part of `Push` that runs under the mutex, from a look at the wait predicate on. -/
def pushSection (cfg : LogConfig) (type : AsyncType) (s : State) (i : Nat) (data : Bytes) :
    State :=
  if type = .asyncSafe then
    -- the predicate of the wait, and the test after it
    if data.length ≤ s.productor.writeableSize ∨ s.stop then
      if s.stop then { s with producers := s.producers.set i .idle } else write cfg s i data
    else
      { s with producers := s.producers.set i (.asleep data) }
  else
    write cfg s i data

/-- The part of `ThreadEntry` that runs under the mutex, from a look at the wait
    predicate on. -/
def waitSection (type : AsyncType) (s : State) (sel : Nat) : Option State :=
  if !s.consumer.isEmpty || s.stop then
    let swapped : State :=
      { s with productor := s.consumer, consumer := s.productor, worker := .callback }
    -- the producers that wait are those of the other type
    if type = .asyncUnsafe then
      (notifyOneProductor s.producers sel).map fun ps => { swapped with producers := ps }
    else
      some swapped
  else
    some { s with worker := .asleep }

def workerStep (type : AsyncType) (s : State) (sel : Nat) : Option State :=
  match s.worker with
  | .loopHead => some { s with worker := if s.stop then .exited else .locking }
  | .locking => waitSection type s sel
  | .asleep => none
  | .woken => waitSection type s sel
  | .callback => some { s with worker := .reset, flushed := s.flushed ++ s.consumer.readable }
  | .reset => some { s with worker := .checkStop, consumer := s.consumer.reset }
  | .checkStop => some { s with worker := if s.stop then .checkEmpty else .loopHead }
  | .checkEmpty => some { s with worker := if s.productor.isEmpty then .exited else .loopHead }
  | .exited => none

/-- The record whose section under the mutex an action runs, with its producer.
    A length is a `size_t`. -/
def sectionOf (s : State) : Action → Option (Nat × Bytes)
  | .push i data =>
    if s.producers[i]? = some .idle ∧ data.length < SizeT.modulus then some (i, data) else none
  | .wake i =>
    match s.producers[i]? with
    | some (.woken data) => some (i, data)
    | _ => none
  | _ => none

def step (cfg : LogConfig) (type : AsyncType) (s : State) : Action → Option State
  | .push i data => (sectionOf s (.push i data)).map fun p => pushSection cfg type s p.1 p.2
  | .wake i => (sectionOf s (.wake i)).map fun p => pushSection cfg type s p.1 p.2
  | .notifyConsumer i =>
    if s.producers[i]? = some .notify then
      some { s with producers := s.producers.set i .idle, worker := s.worker.notified }
    else
      none
  | .worker sel => workerStep type s sel
  | .stopSet =>
    if s.stopCaller = .notCalled then
      some { s with stop := true, stopCaller := .notify }
    else
      none
  | .stopNotify =>
    if s.stopCaller = .notify then
      some { s with stopCaller := .join, worker := s.worker.notified }
    else
      none
  | .stopJoin =>
    if s.stopCaller = .join ∧ s.worker = .exited then
      some { s with stopCaller := .returned }
    else
      none

/-- The state the constructor leaves, with `n` producers that have not called `Push` yet. -/
def start (b : Buffer) (n : Nat) : State where
  productor := b
  consumer := b
  producers := List.replicate n .idle
  worker := .loopHead
  stop := false
  stopCaller := .notCalled
  accepted := []
  acceptedBeforeStop := []
  flushed := []

/-- An `AsyncWorker` of the given type under the given configuration. -/
def system (cfg : LogConfig) (type : AsyncType) : Transition State Action where
  init s := ∃ b n, Buffer.new cfg = some b ∧ s = start b n
  step := step cfg type

/-- A configuration of the size of the examples: four bytes that double below eight. -/
def smallConfig : LogConfig where
  bufferSize := 4
  threshold := 8
  linearGrowth := 4

/-- The bytes of a list of records, one after the other. -/
def bytesOf (records : List (Nat × Bytes)) : Bytes := (records.map Prod.snd).flatten

@[simp] theorem bytesOf_nil : bytesOf [] = [] := rfl

@[simp] theorem bytesOf_append (xs ys : List (Nat × Bytes)) :
    bytesOf (xs ++ ys) = bytesOf xs ++ bytesOf ys := by
  simp only [bytesOf, List.map_append, List.flatten_append]

@[simp] theorem bytesOf_singleton (p : Nat × Bytes) : bytesOf [p] = p.2 := by
  simp only [bytesOf, List.map_cons, List.map_nil, List.flatten_cons, List.flatten_nil,
    List.append_nil]

end AsyncWorker

end Mylog
