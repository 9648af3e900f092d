import AsyncLogStorage.Spec.AsyncWorkerConservation

/-!
# Chunks of whole records

The callback of the log worker is given whole records: wherever the producers, the worker and
the caller of `Stop` are, the accepted records are cut between records into the chunks that were
handed over, the one that the callback is at, and what the producer buffer holds.

`Conserves` says of the bytes what `Cut` says of the records.

## Key results

- `step_cut`: a step hands over a chunk when the worker leaves its callback, and moves no other
  boundary but that between the buffers
-/

namespace Mylog.AsyncWorker

/-- The accepted records: those of the chunks that were handed over, those of the chunk that the
    callback is at, and those that the producer buffer holds. -/
structure Cut (s : State) (handed : List (List (Nat × Bytes)))
    (current waiting : List (Nat × Bytes)) : Prop where
  accepted : s.accepted = handed.flatten ++ current ++ waiting
  flushed : s.flushed = bytesOf handed.flatten
  consumer : s.worker = .callback → s.consumer.readable = bytesOf current
  idle : s.worker ≠ .callback → current = []
  productor : s.productor.readable = bytesOf waiting

/-- The chunks that were handed over after a step: `current` comes to them when the worker
    leaves its callback. -/
def handedAfter (s s' : State) (handed : List (List (Nat × Bytes)))
    (current : List (Nat × Bytes)) : List (List (Nat × Bytes)) :=
  if s.worker = .callback ∧ s'.worker ≠ .callback then handed ++ [current] else handed

theorem start_cut {cfg : LogConfig} {b : Buffer} (hb : Buffer.new cfg = some b) (n : Nat) :
    Cut (start b n) [] [] [] := by
  obtain ⟨hwf, -, hw, -⟩ := Buffer.new_wf hb
  constructor
  case productor =>
    show b.readable = []
    rw [hwf.readable_eq, hw, Nat.zero_sub, List.take_zero]
  all_goals simp [start]

variable {cfg : LogConfig} {type : AsyncType} {s s' : State} {handed : List (List (Nat × Bytes))}
  {current waiting : List (Nat × Bytes)}

/-- The worker does not leave its callback, so nothing is handed over. -/
theorem handedAfter_eq (h : s.worker = .callback → s'.worker = .callback) :
    handedAfter s s' handed current = handed := by
  unfold handedAfter
  rw [if_neg (fun hleave => hleave.2 (h hleave.1))]

/-- The worker leaves its callback. -/
theorem handedAfter_of_leave (hw : s.worker = .callback) (hw' : s'.worker ≠ .callback) :
    handedAfter s s' handed current = handed ++ [current] :=
  if_pos ⟨hw, hw'⟩

/-- A notification wakes the worker up at most. -/
theorem Cut.notified (h : Cut s handed current waiting) (ps : List ProducerPc) (pc : StopPc) :
    Cut { s with producers := ps, stopCaller := pc, worker := s.worker.notified } handed current
      waiting := by
  have hback : s.worker.notified = .callback → s.worker = .callback := by
    intro hw
    exact WorkerPc.notified_eq hw (by simp)
  have hforth : s.worker = .callback → s.worker.notified = .callback := by
    intro hw
    rw [hw]
    rfl
  exact { h with
    consumer := fun hw => h.consumer (hback hw)
    idle := fun hw => h.idle (fun hw' => hw (hforth hw')) }

/-- A step from outside the callback to outside the callback that leaves the records and the
    readable bytes of the producer buffer where they are. -/
theorem Cut.moved (h : Cut s handed current waiting) (hw : s.worker ≠ .callback)
    (hw' : s'.worker ≠ .callback) (haccepted : s'.accepted = s.accepted)
    (hflushed : s'.flushed = s.flushed) (hproductor : s'.productor = s.productor) :
    Cut s' handed current waiting where
  accepted := haccepted.trans h.accepted
  flushed := hflushed.trans h.flushed
  consumer hcall := absurd hcall hw'
  idle _ := h.idle hw
  productor := by rw [hproductor, h.productor]

private theorem workerStep_cut {sel : Nat} (hs : Phase s) (hP : Conserves s)
    (hcut : Cut s handed current waiting) (h : workerStep type s sel = some s') :
    ∃ current' waiting', Cut s' (handedAfter s s' handed current) current' waiting' ∧
      (s.worker = .callback → s'.worker = .callback → current' = current) := by
  obtain ⟨hw, rfl⟩ | ⟨hw, h⟩ | ⟨hw, rfl⟩ | ⟨hw, rfl⟩ | ⟨hw, rfl⟩ | ⟨hw, rfl⟩ := workerStep_cases h
  · -- the loop head
    have hne : s.worker ≠ .callback := by simp [hw]
    rw [handedAfter_eq (fun hw => absurd hw hne)]
    refine ⟨current, waiting, ?_, fun _ _ => rfl⟩
    exact hcut.moved hne (by show ite _ _ _ ≠ _; split <;> simp) rfl rfl rfl
  · have hne : s.worker ≠ .callback := by rcases hw with hw | hw <;> simp [hw]
    rw [handedAfter_eq (fun hw => absurd hw hne)]
    obtain ⟨-, ps, -, -, rfl⟩ | ⟨-, -, rfl⟩ := waitSection_cases h
    · -- the swap: what was waiting is the chunk of the callback, and the other buffer is empty
      have hempty := (hP.consumer_wf hs).isEmpty_iff.mp (hs.consumer_empty_of_wait hw)
      refine ⟨waiting, [], ?_, fun hw => absurd hw hne⟩
      constructor
      case accepted =>
        show s.accepted = handed.flatten ++ waiting ++ []
        rw [hcut.accepted, hcut.idle hne, List.append_nil, List.append_nil]
      case flushed => exact hcut.flushed
      case consumer => exact fun _ => hcut.productor
      case idle => exact fun hw => absurd rfl hw
      case productor => exact hempty
    · -- back to sleep
      exact ⟨current, waiting, hcut.moved hne (by simp) rfl rfl rfl, fun _ _ => rfl⟩
  · -- the callback has returned
    rw [handedAfter_of_leave hw (by simp)]
    refine ⟨[], waiting, ?_, fun _ hw' => by simp at hw'⟩
    constructor
    case accepted =>
      show s.accepted = (handed ++ [current]).flatten ++ [] ++ waiting
      simp [hcut.accepted]
    case flushed =>
      show s.flushed ++ s.consumer.readable = bytesOf (handed ++ [current]).flatten
      simp [hcut.flushed, hcut.consumer hw]
    case consumer => exact fun hw' => by simp at hw'
    case idle => exact fun _ => rfl
    case productor => exact hcut.productor
  -- the reset, and the two halves of the last check
  all_goals
    have hne : s.worker ≠ .callback := by simp [hw]
    rw [handedAfter_eq (fun hw => absurd hw hne)]
    refine ⟨current, waiting, ?_, fun _ _ => rfl⟩
  · exact hcut.moved hne (by simp) rfl rfl rfl
  all_goals exact hcut.moved hne (by show ite _ _ _ ≠ _; split <;> simp) rfl rfl rfl

/-- A step whose record fits keeps the records in order. A chunk is handed over when the worker
    leaves its callback, and stays as it is while the worker is there. -/
theorem step_cut {a : Action} (hs : Phase s) (hP : Conserves s)
    (hcut : Cut s handed current waiting) (hfit : Fits cfg type s a)
    (h : step cfg type s a = some s') :
    ∃ current' waiting', Cut s' (handedAfter s s' handed current) current' waiting' ∧
      (s.worker = .callback → s'.worker = .callback → current' = current) := by
  obtain ⟨i, data, hsec, hout⟩ | ⟨i, -, -, rfl⟩ | ⟨sel, -, h⟩ | ⟨-, -, rfl⟩ | ⟨-, -, rfl⟩ |
    ⟨-, -, -, rfl⟩ := step_cases h
  · cases hout with
    | leave =>
      rw [handedAfter_eq (fun hw => by exact hw)]
      exact ⟨current, waiting, { hcut with }, fun _ _ => rfl⟩
    | block =>
      rw [handedAfter_eq (fun hw => by exact hw)]
      exact ⟨current, waiting, { hcut with }, fun _ _ => rfl⟩
    | write b hpush hsafe =>
      -- the record comes to those that wait
      obtain ⟨g, hg, -⟩ := Buffer.push_eq_some.mp hpush
      obtain ⟨-, hread⟩ :=
        Buffer.push_spec (hP.productor_wf hs) hg (hfit i data g hsec hsafe hg) hpush
      rw [handedAfter_eq (fun hw => by exact hw)]
      refine ⟨current, waiting ++ [(i, data)], ?_, fun _ _ => rfl⟩
      refine { hcut with accepted := ?_, productor := ?_ }
      · show s.accepted ++ [(i, data)] = _
        rw [hcut.accepted, List.append_assoc]
      · show b.readable = _
        rw [hread, hcut.productor, bytesOf_append, bytesOf_singleton]
  · -- the notification by a producer
    have hnotified := hcut.notified (s.producers.set i .idle) s.stopCaller
    rw [handedAfter_eq (fun hw => by simp [hw, WorkerPc.notified])]
    exact ⟨current, waiting, hnotified, fun _ _ => rfl⟩
  · exact workerStep_cut hs hP hcut h
  · rw [handedAfter_eq (fun hw => by exact hw)]
    exact ⟨current, waiting, { hcut with }, fun _ _ => rfl⟩
  · -- the notification by `Stop`
    have hnotified := hcut.notified s.producers .join
    rw [handedAfter_eq (fun hw => by simp [hw, WorkerPc.notified])]
    exact ⟨current, waiting, hnotified, fun _ _ => rfl⟩
  · rw [handedAfter_eq (fun hw => by exact hw)]
    exact ⟨current, waiting, { hcut with }, fun _ _ => rfl⟩

end Mylog.AsyncWorker
