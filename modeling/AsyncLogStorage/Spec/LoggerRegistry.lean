import AsyncLogStorage.Native.LoggerManager

/-!
# The registry answers as if its calls were atomic

`AddLogger` looks for the name in one section and inserts in another one, so that of two threads
with the same name both may come to the second section. `insert` keeps what is there, and so the
callers cannot tell `LoggerManager` from a registry that does each call at once: the first
logger of a name stays.

## Key results

- `LoggerManager.step_follows`: a section is a call of the registry, or nothing yet
- `LoggerManager.linearizable`: the callers see a history of the registry
- `Registry.Answers.step`: what has been answered stays true
- `LoggerManager.answers_agree`: a name stands for one logger once it stands for any
-/

namespace Mylog

open LoggerManager (Call Result Event)

/-! ## The registry -/

/-- A logger for each name, the first that came. -/
structure Registry (P : Type) where
  default : P
  logger : Bytes → Option P

namespace Registry

variable {P : Type}

/-- A call, all at once. -/
def apply (name : P → Bytes) (reg : Registry P) : Call P → Registry P × Result P
  | .loggerExist n => (reg, .exist (reg.logger n).isSome)
  | .addLogger logger =>
    ({ reg with
        logger := fun n => if n = name logger then some ((reg.logger n).getD logger)
          else reg.logger n }, .added)
  | .getLogger n => (reg, .logger (reg.logger n))
  | .defaultLogger => (reg, .logger (some reg.default))

inductive Pc (P : Type) where
  | idle
  | called (c : Call P) (start : Nat)
  | done (c : Call P) (start : Nat) (r : Result P)

structure State (P : Type) where
  reg : Registry P
  threads : List (Pc P)
  history : List (Event P)

inductive Action (P : Type) where
  | call (i : Nat) (c : Call P)
  | apply (i : Nat)
  | ret (i : Nat)

def step (name : P → Bytes) (t : State P) : Action P → Option (State P)
  | .call i c =>
    match t.threads[i]? with
    | some .idle =>
      some { t with
        threads := t.threads.set i (.called c t.history.length)
        history := t.history ++ [.call i c] }
    | _ => none
  | .apply i =>
    match t.threads[i]? with
    | some (.called c start) =>
      some { t with
        reg := (t.reg.apply name c).1
        threads := t.threads.set i (.done c start (t.reg.apply name c).2) }
    | _ => none
  | .ret i =>
    match t.threads[i]? with
    | some (.done c start r) =>
      some { t with
        threads := t.threads.set i .idle
        history := t.history ++ [.ret i c start r] }
    | _ => none

/-- Nobody has called yet, and the one name is that of the default logger. -/
def start (default : P) (threads : Nat) : State P where
  reg := ⟨default, fun n => if n = Bytes.ofString "default" then some default else none⟩
  threads := List.replicate threads .idle
  history := []

def system (name : P → Bytes) : Transition (State P) (Action P) where
  init t := ∃ default threads, t = start default threads
  step := step name

/-- A name keeps its logger. -/
theorem apply_logger {name : P → Bytes} {reg : Registry P} (c : Call P) {n : Bytes} {p : P}
    (h : reg.logger n = some p) : (reg.apply name c).1.logger n = some p := by
  cases c with
  | addLogger logger => simp [apply, h]
  | loggerExist n => exact h
  | getLogger n => exact h
  | defaultLogger => exact h

@[simp] theorem apply_default (name : P → Bytes) (reg : Registry P) (c : Call P) :
    (reg.apply name c).1.default = reg.default := by
  cases c <;> rfl

/-! ## The answers -/

/-- What an answer says of the registry, then and ever after. -/
def Right (name : P → Bytes) (t : State P) : Call P → Nat → Result P → Prop
  | .addLogger logger, _, _ => ∃ p, t.reg.logger (name logger) = some p
  | .getLogger n, start, r =>
    (∃ p, r = .logger (some p) ∧ t.reg.logger n = some p) ∨
      -- the null pointer, before any `AddLogger` of the name had returned
      (r = .logger none ∧ n ≠ Bytes.ofString "default" ∧
        ∀ k < start, ∀ i logger start' r',
          t.history[k]? = some (.ret i (.addLogger logger) start' r') → name logger ≠ n)
  | _, _, _ => True

/-- All answers so far, those that have not been returned yet as well. -/
structure Answers (name : P → Bytes) (t : State P) : Prop where
  default : t.reg.logger (Bytes.ofString "default") = some t.reg.default
  ret : ∀ i c start r, .ret i c start r ∈ t.history →
    t.history[start]? = some (.call i c) ∧ Right name t c start r
  called : ∀ (i : Nat) c start, t.threads[i]? = some (.called c start) →
    t.history[start]? = some (.call i c)
  done : ∀ (i : Nat) c start r, t.threads[i]? = some (.done c start r) →
    t.history[start]? = some (.call i c) ∧ Right name t c start r

variable {name : P → Bytes} {t t' : State P}

/-- The answers stay right. -/
theorem Right.mono {c : Call P} {start : Nat} {r : Result P} {new : List (Event P)}
    (h : Right name t c start r) (hlt : start < t.history.length)
    (hlogger : ∀ n p, t.reg.logger n = some p → t'.reg.logger n = some p)
    (hhistory : t'.history = t.history ++ new) : Right name t' c start r := by
  cases c with
  | loggerExist n => trivial
  | defaultLogger => trivial
  | addLogger logger =>
    obtain ⟨p, hp⟩ := h
    exact ⟨p, hlogger _ _ hp⟩
  | getLogger n =>
    obtain ⟨p, hr, hp⟩ | ⟨hr, hn, hnone⟩ := h
    · exact .inl ⟨p, hr, hlogger _ _ hp⟩
    · refine .inr ⟨hr, hn, ?_⟩
      intro k hk i logger start' r' hget
      rw [hhistory, List.getElem?_append_left (by omega)] at hget
      exact hnone k hk i logger start' r' hget

/-- What the registry answers at once is right. -/
theorem Answers.right (h : Answers name t) (c : Call P) (start : Nat) {threads : List (Pc P)} :
    Right name { t with reg := (t.reg.apply name c).1, threads := threads } c start
      (t.reg.apply name c).2 := by
  cases c with
  | loggerExist n => trivial
  | defaultLogger => trivial
  | addLogger logger => exact ⟨(t.reg.logger (name logger)).getD logger, by simp [apply]⟩
  | getLogger n =>
    cases hlogger : t.reg.logger n with
    | some p => exact .inl ⟨p, by simp [apply, hlogger], hlogger⟩
    | none =>
      refine .inr ⟨by simp [apply, hlogger], ?_, ?_⟩
      · intro hn
        rw [hn, h.default] at hlogger
        cases hlogger
      · intro k hk i logger start' r' hget hname
        obtain ⟨p, hp⟩ := (h.ret i _ start' r' (List.mem_of_getElem? hget)).2
        rw [hname, hlogger] at hp
        cases hp

theorem lt_of_event {c : Call P} {i start : Nat} (h : t.history[start]? = some (.call i c)) :
    start < t.history.length :=
  (List.getElem?_eq_some_iff.mp h).1

/-- One thread goes on, and the others stay where they are. -/
theorem Answers.goto (h : Answers name t) (i : Nat) (pc : Pc P) (new : List (Event P))
    (hthreads : t'.threads = t.threads.set i pc) (hhistory : t'.history = t.history ++ new)
    (hdefault : t'.reg.default = t.reg.default)
    (hlogger : ∀ n p, t.reg.logger n = some p → t'.reg.logger n = some p)
    (hnew : ∀ j c start r, .ret j c start r ∈ new →
      t.history[start]? = some (.call j c) ∧ Right name t c start r)
    (hcalled : ∀ c start, pc = .called c start → t'.history[start]? = some (.call i c))
    (hdone : ∀ c start r, pc = .done c start r →
      t.history[start]? = some (.call i c) ∧ Right name t' c start r) :
    Answers name t' := by
  have hevent : ∀ {start : Nat} {j : Nat} {c : Call P}, t.history[start]? = some (.call j c) →
      t'.history[start]? = some (.call j c) := by
    intro start j c hget
    rw [hhistory, List.getElem?_append_left (lt_of_event hget)]
    exact hget
  have hkeep : ∀ {start : Nat} {j : Nat} {c : Call P} {r : Result P},
      t.history[start]? = some (.call j c) ∧ Right name t c start r →
      t'.history[start]? = some (.call j c) ∧ Right name t' c start r := by
    intro start j c r hanswer
    exact ⟨hevent hanswer.1, hanswer.2.mono (lt_of_event hanswer.1) hlogger hhistory⟩
  constructor
  case default =>
    rw [hdefault]
    exact hlogger _ _ h.default
  case ret =>
    intro j c start r hmem
    rw [hhistory, List.mem_append] at hmem
    obtain hmem | hmem := hmem
    · exact hkeep (h.ret j c start r hmem)
    · exact hkeep (hnew j c start r hmem)
  case called =>
    intro j c start hj
    rw [hthreads, List.getElem?_set] at hj
    split at hj
    · rename_i hij
      split at hj
      · rw [← hij]
        exact hcalled c start (Option.some.inj hj)
      · cases hj
    · exact hevent (h.called j c start hj)
  case done =>
    intro j c start r hj
    rw [hthreads, List.getElem?_set] at hj
    split at hj
    · rename_i hij
      split at hj
      · obtain ⟨hget, hright⟩ := hdone c start r (Option.some.inj hj)
        rw [← hij]
        exact ⟨hevent hget, hright⟩
      · cases hj
    · exact hkeep (h.done j c start r hj)

theorem Answers.step {a : Action P} (h : Answers name t) (hs : step name t a = some t') :
    Answers name t' := by
  cases a with
  | call i c =>
    simp only [Registry.step] at hs
    split at hs
    · obtain rfl := Option.some.inj hs
      refine h.goto i _ [.call i c] rfl rfl rfl (fun _ _ hp => hp) ?_ ?_ ?_
      · intro j c' start r hmem
        simp at hmem
      · intro c' start hpc
        cases hpc
        simp
      · intro c' start r hpc
        cases hpc
    · cases hs
  | apply i =>
    simp only [Registry.step] at hs
    split at hs
    · rename_i c start hi
      obtain rfl := Option.some.inj hs
      refine h.goto i _ [] rfl (List.append_nil _).symm (apply_default name t.reg c)
        (fun _ _ hp => apply_logger c hp) ?_ ?_ ?_
      · intro j c' start' r hmem
        simp at hmem
      · intro c' start' hpc
        cases hpc
      · intro c' start' r hpc
        cases hpc
        exact ⟨h.called i c start hi, h.right c start⟩
    · cases hs
  | ret i =>
    simp only [Registry.step] at hs
    split at hs
    · rename_i c start r hi
      obtain rfl := Option.some.inj hs
      refine h.goto i _ [.ret i c start r] rfl rfl rfl (fun _ _ hp => hp) ?_ ?_ ?_
      · intro j c' start' r' hmem
        cases List.mem_singleton.mp hmem
        exact h.done i c start r hi
      · intro c' start' hpc
        cases hpc
      · intro c' start' r' hpc
        cases hpc
    · cases hs

theorem answers_start (default : P) (threads : Nat) : Answers name (start default threads) := by
  have hidle : ∀ (i : Nat) pc, (start default threads).threads[i]? = some pc → pc = .idle := by
    intro i pc hi
    exact (List.mem_replicate.mp (List.mem_of_getElem? hi)).2
  constructor
  case default => simp [start]
  case ret => simp [start]
  case called =>
    intro i c start hi
    cases hidle i _ hi
  case done =>
    intro i c start r hi
    cases hidle i _ hi

theorem answers_of_reachable (h : (system name).Reachable t) : Answers name t := by
  apply h.invariant
  · rintro t ⟨default, threads, rfl⟩
    exact answers_start default threads
  · intro t a t' h hs
    exact h.step hs

/-- A pointer that `GetLogger` has returned is in the registry. -/
theorem Answers.logger_of_ret (h : Answers name t) {n : Bytes} {i start : Nat} {p : P}
    (hr : .ret i (.getLogger n) start (.logger (some p)) ∈ t.history) :
    t.reg.logger n = some p := by
  obtain ⟨q, hq, hlogger⟩ | ⟨hnone, -⟩ := (h.ret i _ start _ hr).2
  · cases hq
    exact hlogger
  · cases hnone

end Registry

/-! ## `LoggerManager` -/

namespace LoggerManager

variable {P : Type} {name : P → Bytes} {s s' : State P} {t : Registry.State P}

/-- What a call has done to the registry so far. -/
def Pc.seen : Pc P → Registry.Pc P
  | .idle => .idle
  | .calling c start => .called c start
  | .inserting logger start => .called (.addLogger logger) start
  | .returning c start r => .done c start r

structure Follows (s : State P) (t : Registry.State P) : Prop where
  default : t.reg.default = s.default_logger_
  logger : t.reg.logger = s.find
  threads : t.threads = s.threads.map Pc.seen
  history : t.history = s.history

theorem Follows.getElem (h : Follows s t) {i : Nat} {pc : Pc P} (hi : s.threads[i]? = some pc) :
    t.threads[i]? = some pc.seen := by
  simp [h.threads, hi]

/-- `insert` after an unsuccessful `find`, and `insert` alone. -/
theorem lookup_insert (loggers_ : List (Bytes × P)) (key : Bytes) (logger : P) (n : Bytes) :
    (insert loggers_ key logger).lookup n =
      if n = key then some ((loggers_.lookup n).getD logger) else loggers_.lookup n := by
  cases hkey : loggers_.lookup key with
  | some p =>
    by_cases hn : n = key
    · simp [insert, hkey, hn]
    · simp [insert, hkey, hn]
  | none =>
    by_cases hn : n = key
    · simp [insert, hkey, hn]
    · have hne : (n == key) = false := by simp [hn]
      simp [insert, hkey, hn, List.lookup_cons, hne]

/-- One step of the registry. -/
theorem follows_of_step {a : Registry.Action P} {t' : Registry.State P}
    (hs : Registry.step name t a = some t') (h : Follows s t') :
    ∃ bs t', (Registry.system name).run t bs = some t' ∧ Follows s t' := by
  refine ⟨[a], t', ?_, h⟩
  rw [Transition.run_cons]
  show (Registry.step name t a).bind _ = some t'
  rw [hs]
  rfl

/-- A section is what the registry does at once, or it changes nothing. -/
theorem Follows.first (h : Follows s t) {i start : Nat} {c : Call P}
    (hi : s.threads[i]? = some (.calling c start)) :
    ∃ bs t', (Registry.system name).run t bs = some t' ∧
      Follows { s with threads := s.threads.set i (s.first name c start) } t' := by
  have hcalled : t.threads[i]? = some (.called c start) := h.getElem hi
  by_cases hadd : ∃ logger, c = .addLogger logger ∧ s.find (name logger) = none
  · -- nothing yet
    obtain ⟨logger, rfl, hnone⟩ := hadd
    refine ⟨[], t, rfl, h.default, h.logger, ?_, h.history⟩
    obtain ⟨hlt, hget⟩ := List.getElem?_eq_some_iff.mp hcalled
    have hsame : t.threads.set i (.called (.addLogger logger) start) = t.threads := by
      rw [← hget, List.set_getElem_self]
    simp only [State.first, hnone, Option.isSome_none, Bool.false_eq_true, if_false,
      List.map_set, Pc.seen]
    rw [← h.threads, hsame]
  · have hpc : (s.first name c start).seen = .done c start (t.reg.apply name c).2 := by
      cases c with
      | loggerExist n => simp [State.first, Registry.apply, h.logger, Pc.seen]
      | getLogger n => simp [State.first, Registry.apply, h.logger, Pc.seen]
      | defaultLogger => simp [State.first, Registry.apply, h.default, Pc.seen]
      | addLogger logger =>
        have hsome : (s.find (name logger)).isSome := by
          cases hfind : s.find (name logger) with
          | some p => rfl
          | none => exact absurd ⟨logger, rfl, hfind⟩ hadd
        simp [State.first, Registry.apply, hsome, Pc.seen]
    have hlogger : (t.reg.apply name c).1.logger = s.find := by
      cases c with
      | loggerExist n => exact h.logger
      | getLogger n => exact h.logger
      | defaultLogger => exact h.logger
      | addLogger logger =>
        funext n
        simp only [Registry.apply, h.logger]
        split
        · rename_i hn
          cases hfind : s.find n with
          | some p => rfl
          | none => exact absurd ⟨logger, rfl, hn ▸ hfind⟩ hadd
        · rfl
    have hs : Registry.step name t (.apply i) = some { t with
        reg := (t.reg.apply name c).1
        threads := t.threads.set i (.done c start (t.reg.apply name c).2) } := by
      simp only [Registry.step, hcalled]
    apply follows_of_step hs
    constructor
    case default => simpa using h.default
    case logger => exact hlogger
    case threads => simp only [List.map_set, hpc, h.threads]
    case history => exact h.history

/-- A step of `LoggerManager` is at most one of the registry. -/
theorem step_follows {a : Action P} (h : Follows s t) (hs : step name s a = some s') :
    ∃ bs t', (Registry.system name).run t bs = some t' ∧ Follows s' t' := by
  cases a with
  | call i c =>
    simp only [step] at hs
    split at hs
    · rename_i hi
      obtain rfl := Option.some.inj hs
      have hidle : t.threads[i]? = some .idle := h.getElem hi
      have hs : Registry.step name t (.call i c) = some { t with
          threads := t.threads.set i (.called c t.history.length)
          history := t.history ++ [.call i c] } := by
        simp only [Registry.step, hidle]
      apply follows_of_step hs
      refine ⟨h.default, h.logger, ?_, ?_⟩
      · simp [h.threads, h.history, Pc.seen]
      · simp [h.history]
    · cases hs
  | next i =>
    simp only [step] at hs
    split at hs
    · rename_i c start hi
      obtain rfl := Option.some.inj hs
      exact h.first hi
    · rename_i logger start hi
      obtain rfl := Option.some.inj hs
      have hcalled : t.threads[i]? = some (.called (.addLogger logger) start) := h.getElem hi
      have hs : Registry.step name t (.apply i) = some { t with
          reg := (t.reg.apply name (.addLogger logger)).1
          threads := t.threads.set i (.done (.addLogger logger) start .added) } := by
        simp only [Registry.step, hcalled, Registry.apply]
      apply follows_of_step hs
      refine ⟨h.default, ?_, ?_, h.history⟩
      · funext n
        simp only [Registry.apply, h.logger, State.find, lookup_insert]
      · simp [h.threads, Pc.seen]
    · cases hs
  | ret i =>
    simp only [step] at hs
    split at hs
    · rename_i c start r hi
      obtain rfl := Option.some.inj hs
      have hdone : t.threads[i]? = some (.done c start r) := h.getElem hi
      have hs : Registry.step name t (.ret i) = some { t with
          threads := t.threads.set i .idle
          history := t.history ++ [.ret i c start r] } := by
        simp only [Registry.step, hdone]
      apply follows_of_step hs
      refine ⟨h.default, h.logger, ?_, ?_⟩
      · simp [h.threads, Pc.seen]
      · simp [h.history]
    · cases hs

theorem start_follows (default_logger_ : P) (threads : Nat) :
    Follows (start default_logger_ threads) (Registry.start default_logger_ threads) := by
  constructor
  case default => rfl
  case logger =>
    funext n
    simp only [Registry.start, start, State.find, lookup_insert]
    rfl
  case threads => simp [Registry.start, start, Pc.seen]
  case history => rfl

/-- Whatever the threads do, the calls and the answers are those of a run of the registry. -/
theorem linearizable {default_logger_ : P} {threads : Nat} {as : List (Action P)}
    (hrun : (system name).run (start default_logger_ threads) as = some s) :
    ∃ bs t, (Registry.system name).run (Registry.start default_logger_ threads) bs = some t ∧
      t.history = s.history ∧ t.reg.default = s.default_logger_ ∧ t.reg.logger = s.find := by
  obtain ⟨bs, t, ht, hfollows⟩ := Transition.run_simulate (T := system name)
    (U := Registry.system name) (fun _ _ _ _ h hstep => step_follows h hstep)
    (start_follows default_logger_ threads) hrun
  exact ⟨bs, t, ht, hfollows.history, hfollows.default, hfollows.logger⟩

/-- Two threads come with the loggers `1` and `2` of one name, both find no such name, and the
    second thread inserts first. Then the first one asks. -/
def twoLoggers : List (Action Nat) :=
  [.call 0 (.addLogger 1), .call 1 (.addLogger 2), .next 0, .next 1, .next 1, .next 0, .ret 0,
    .ret 1, .call 0 (.getLogger (Bytes.ofString "cloud_storage")), .next 0, .ret 0]

/-- The default logger is `0`. -/
def smallName (logger : Nat) : Bytes :=
  Bytes.ofString (if logger = 0 then "default" else "cloud_storage")

theorem run_twoLoggers : ∃ s, (system smallName).run (start 0 2) twoLoggers = some s ∧
    s.history[2]? = some (.ret 0 (.addLogger 1) 0 .added) ∧
    s.history.getLast? =
      some (.ret 0 (.getLogger (Bytes.ofString "cloud_storage")) 4 (.logger (some 2))) :=
  ⟨_, rfl, by decide, by decide⟩

theorem linearizable_small : ∃ s, (system smallName).run (start 0 2) twoLoggers = some s ∧
    ∃ bs t, (Registry.system smallName).run (Registry.start 0 2) bs = some t ∧
      t.history = s.history := by
  obtain ⟨s, hrun, -⟩ := run_twoLoggers
  obtain ⟨bs, t, ht, hhistory, -⟩ := linearizable hrun
  exact ⟨s, hrun, bs, t, ht, hhistory⟩

/-- Two pointers that `GetLogger` has returned for a name are the same, a call after the return
    of an `AddLogger` of its name gets one, and `default` stands for the default logger. -/
theorem answers_agree (h : (system name).Reachable s) :
    (∀ i c start r, .ret i c start r ∈ s.history → s.history[start]? = some (.call i c)) ∧
    (∀ n i start p j start' q, .ret i (.getLogger n) start (.logger (some p)) ∈ s.history →
      .ret j (.getLogger n) start' (.logger (some q)) ∈ s.history → p = q) ∧
    (∀ k i logger start r j start' r',
      s.history[k]? = some (.ret i (.addLogger logger) start r) → k < start' →
      .ret j (.getLogger (name logger)) start' r' ∈ s.history → ∃ p, r' = .logger (some p)) ∧
    ∀ i start r, .ret i (.getLogger (Bytes.ofString "default")) start r ∈ s.history →
      r = .logger (some s.default_logger_) := by
  have hsimulate := h.simulate (U := Registry.system name) (R := Follows)
    (by rintro s ⟨default_logger_, threads, rfl⟩
        exact ⟨_, ⟨default_logger_, threads, rfl⟩, start_follows default_logger_ threads⟩)
    (fun _ _ _ _ h hstep => step_follows h hstep)
  obtain ⟨t, ht, hfollows⟩ := hsimulate
  have hanswers := Registry.answers_of_reachable ht
  simp only [← hfollows.history, ← hfollows.default]
  refine ⟨fun i c start r hr => (hanswers.ret i c start r hr).1, ?_, ?_, ?_⟩
  · intro n i start p j start' q hp hq
    have hlogger := hanswers.logger_of_ret hp
    rw [hanswers.logger_of_ret hq] at hlogger
    exact (Option.some.inj hlogger).symm
  · intro k i logger start r j start' r' hk hlt hr'
    obtain ⟨p, rfl, -⟩ | ⟨-, -, hnone⟩ := (hanswers.ret j _ start' r' hr').2
    · exact ⟨p, rfl⟩
    · exact absurd rfl (hnone k hlt i logger start r hk)
  · intro i start r hr
    obtain ⟨p, rfl, hp⟩ | ⟨-, hne, -⟩ := (hanswers.ret i _ start r hr).2
    · rw [hanswers.default] at hp
      rw [Option.some.inj hp]
    · exact absurd rfl hne

/-- Both threads have returned from `AddLogger`, the first one without an insertion. A thread
    that asks then gets the logger of the second one, and whoever else asks gets the same. -/
theorem answers_agree_small : ∃ s, (system smallName).Reachable s ∧
    .ret 0 (.getLogger (Bytes.ofString "cloud_storage")) 4 (.logger (some 2)) ∈ s.history ∧
    (∀ j start q,
      .ret j (.getLogger (Bytes.ofString "cloud_storage")) start (.logger (some q)) ∈ s.history →
        q = 2) ∧
    ∀ j start r, 2 < start →
      .ret j (.getLogger (Bytes.ofString "cloud_storage")) start r ∈ s.history →
        ∃ p, r = .logger (some p) := by
  obtain ⟨s, hrun, hadded, hlast⟩ := run_twoLoggers
  have hreach : (system smallName).Reachable s := ⟨_, _, ⟨0, 2, rfl⟩, hrun⟩
  have hasked := List.mem_of_getLast? hlast
  obtain ⟨-, hsame, hfound, -⟩ := answers_agree hreach
  refine ⟨s, hreach, hasked, ?_, ?_⟩
  · intro j start q hq
    exact hsame _ j start q 0 4 2 hq hasked
  · intro j start r hlt hr
    exact hfound 2 0 1 0 .added j start r hadded hlt hr

end LoggerManager

end Mylog
