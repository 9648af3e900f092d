import AsyncLogStorage.Spec.LogRoll
import AsyncLogStorage.ForStd.List
import Mathlib.Data.List.Nodup

/-!
# The names of log files

`CreateLogFileName` writes the fields of the time one after the other, without separators and
without leading zeros, so a name tells the year, the counter, and the number that the digits of
the other fields make up. Two times with the same number are mistaken for each other.

## Key results

- `createLogFileName_inj_iff`: what a name tells
- `rotation_own_file_iff`: when different times give different names, and when the rotations of
  a program that is started again and again open files of their own
-/

/-! ## What a name tells -/

namespace LocalTime

open Bytes (joinDigits)

/-- The year has four digits. -/
def FourDigits (t : LocalTime) : Prop :=
  1000 ≤ t.tm_year + 1900 ∧ t.tm_year + 1900 ≤ 9999

/-- The number that the fields after the year make up in a file name. -/
def joined (t : LocalTime) : Nat :=
  joinDigits (joinDigits (joinDigits (joinDigits (t.tm_mon + 1) t.tm_mday) (t.tm_hour + 1))
    (t.tm_min + 1)) (t.tm_sec + 1)

/-- The numerals of the fields after the year are the numeral of that number. -/
theorem ofString_joined (t : LocalTime) :
    Bytes.ofString (toString (t.tm_mon + 1)) ++ Bytes.ofString (toString t.tm_mday) ++
      Bytes.ofString (toString (t.tm_hour + 1)) ++ Bytes.ofString (toString (t.tm_min + 1)) ++
      Bytes.ofString (toString (t.tm_sec + 1)) = Bytes.ofString (toString t.joined) := by
  have hmday := t.mday_le
  have hhour := t.hour_le
  have hmin := t.min_le
  have hsec := t.sec_le
  have hday := Bytes.joinDigits_pos (b := t.tm_mday) (Nat.succ_pos t.tm_mon)
  have hhours := Bytes.joinDigits_pos (b := t.tm_hour + 1) hday
  have hmins := Bytes.joinDigits_pos (b := t.tm_min + 1) hhours
  rw [Bytes.ofString_nat_append (Nat.succ_pos _) (by omega),
    Bytes.ofString_nat_append hday (by omega), Bytes.ofString_nat_append hhours (by omega),
    Bytes.ofString_nat_append hmins (by omega), joined]

end LocalTime

namespace Mylog

/-- A name is the base name, the year, the number of the other fields, and the counter. -/
theorem createLogFileName_eq (basename_ : Bytes) (t : LocalTime) (cnt_ : Nat) :
    createLogFileName basename_ t cnt_ =
      basename_ ++ (Bytes.ofString (toString (t.tm_year + 1900)) ++
        Bytes.ofString (toString t.joined) ++
        45 :: (Bytes.ofString (toString cnt_) ++ Bytes.ofString ".log")) := by
  have hdash : Bytes.ofString "-" = [45] := rfl
  simp only [createLogFileName, ← t.ofString_joined, hdash, List.append_assoc, List.cons_append,
    List.nil_append]

/-- A year of four digits is a natural number. -/
theorem exists_nat_of_fourDigits {t : LocalTime} (h : t.FourDigits) :
    ∃ year : Nat, 1000 ≤ year ∧ year < 10000 ∧ t.tm_year + 1900 = (year : Int) := by
  obtain ⟨hlo, hhi⟩ := h
  exact ⟨(t.tm_year + 1900).toNat, by omega, by omega, by omega⟩

/-- Two numerals of four digits, with more digits behind them. -/
theorem ofString_year_inj {y y' j j' : Nat} (hlo : 1000 ≤ y) (hhi : y < 10000)
    (hlo' : 1000 ≤ y') (hhi' : y' < 10000) :
    Bytes.ofString (toString y) ++ Bytes.ofString (toString j) =
      Bytes.ofString (toString y') ++ Bytes.ofString (toString j') ↔ y = y' ∧ j = j' := by
  have hten : 1 < 10 := by decide
  have hlen : ∀ n, 1000 ≤ n → n < 10000 → (Nat.toDigits 10 n).length = 4 := by
    intro n hlo hhi
    have hle := (Nat.length_toDigits_le_iff (k := 4) hten (by omega)).mpr hhi
    have hnot := mt (Nat.length_toDigits_le_iff (k := 3) hten (by omega)).mp (Nat.not_lt.mpr hlo)
    omega
  rw [← Bytes.ofString_append, ← Bytes.ofString_append, Bytes.ofString_inj, ← String.toList_inj]
  simp only [String.toList_append, Nat.toString_eq_repr, Nat.toList_repr]
  constructor
  · intro h
    obtain ⟨hy, hj⟩ := List.append_inj h (by rw [hlen y hlo hhi, hlen y' hlo' hhi'])
    exact ⟨Bytes.toDigits_inj.mp hy, Bytes.toDigits_inj.mp hj⟩
  · rintro ⟨rfl, rfl⟩
    rfl

/-- The names made at two times, with two counters, tell the same. -/
def Collide (t : LocalTime) (cnt : Nat) (t' : LocalTime) (cnt' : Nat) : Prop :=
  t.tm_year = t'.tm_year ∧ t.joined = t'.joined ∧ cnt = cnt'

/-- A name tells the year, the number that the other fields make up, and the counter. -/
theorem createLogFileName_inj_iff {basename_ : Bytes} {t t' : LocalTime} {cnt cnt' : Nat}
    (ht : t.FourDigits) (ht' : t'.FourDigits) :
    createLogFileName basename_ t cnt = createLogFileName basename_ t' cnt' ↔
      Collide t cnt t' cnt' := by
  obtain ⟨y, hlo, hhi, hy⟩ := exists_nat_of_fourDigits ht
  obtain ⟨y', hlo', hhi', hy'⟩ := exists_nat_of_fourDigits ht'
  have hdash : ∀ y j : Nat, 45 ∉ Bytes.ofString (toString y) ++ Bytes.ofString (toString j) := by
    intro y j
    rw [List.mem_append, not_or]
    exact ⟨Bytes.minus_not_mem_nat y, Bytes.minus_not_mem_nat j⟩
  have hyears : y = y' ↔ t.tm_year = t'.tm_year := by omega
  rw [createLogFileName_eq, createLogFileName_eq, hy, hy', List.append_cancel_left_eq]
  show Bytes.ofString (toString y) ++ _ ++ _ = Bytes.ofString (toString y') ++ _ ++ _ ↔ _
  -- the dash ends the digits of the time
  rw [List.append_cons_inj_left (hdash y t.joined) (hdash y' t'.joined),
    ofString_year_inj hlo hhi hlo' hhi', List.append_cancel_right_eq, Bytes.ofString_nat_inj,
    hyears, Collide, and_assoc]

/-- The fields hold no NUL, so a NUL in a name comes from the base name. -/
theorem nul_mem_createLogFileName {basename_ : Bytes} {t : LocalTime} {cnt : Nat}
    (ht : t.FourDigits) : 0 ∈ createLogFileName basename_ t cnt ↔ 0 ∈ basename_ := by
  obtain ⟨y, -, -, hy⟩ := exists_nat_of_fourDigits ht
  have hdigits : ∀ n : Nat, 0 ∉ Bytes.ofString (toString n) := fun n => Bytes.nul_not_mem_int n
  have hdash : (0 : UInt8) ≠ 45 := by decide
  have hend : (0 : UInt8) ∉ Bytes.ofString ".log" := by decide
  rw [createLogFileName_eq, hy]
  show 0 ∈ basename_ ++ (Bytes.ofString (toString y) ++ _ ++ _) ↔ _
  simp only [List.mem_append, List.mem_cons, hdigits, hdash, hend, or_false]

/-- Two names are one for `fopen` if they tell the same, or if the base name ends them both. -/
theorem cstr_createLogFileName_iff {basename_ : Bytes} {t t' : LocalTime} {cnt cnt' : Nat}
    (ht : t.FourDigits) (ht' : t'.FourDigits) :
    (createLogFileName basename_ t cnt).cstr = (createLogFileName basename_ t' cnt').cstr ↔
      0 ∈ basename_ ∨ Collide t cnt t' cnt' := by
  by_cases hnul : 0 ∈ basename_
  · refine iff_of_true ?_ (.inl hnul)
    rw [createLogFileName_eq, createLogFileName_eq, Bytes.cstr_append_of_mem _ hnul,
      Bytes.cstr_append_of_mem _ hnul]
  · rw [Bytes.cstr_eq_self.mpr (mt (nul_mem_createLogFileName ht).mp hnul),
      Bytes.cstr_eq_self.mpr (mt (nul_mem_createLogFileName ht').mp hnul),
      createLogFileName_inj_iff ht ht']
    simp only [hnul, false_or]

/-! ## Opening files of one's own -/

/-- What `fopen` opens was created at the time of the call, and is empty, exactly where this
    holds of every file of that name. -/
theorem fopen_own_iff {files : List LogFile} {name : Bytes} {now : LocalTime} {number : Nat}
    (hnodup : (files.map (·.name)).Nodup) :
    ((fopen files name now number).2.created = now ∧ (fopen files name now number).2.base = 0) ↔
      ∀ file ∈ files, file.name = name → file.created = now ∧ file.content = [] := by
  unfold fopen
  cases hfind : files.find? (·.name = name) with
  | none =>
    have hnone : ∀ file ∈ files, file.name ≠ name := by
      simpa only [List.find?_eq_none, decide_eq_true_eq] using hfind
    exact ⟨fun _ file hfile hname => absurd hname (hnone file hfile), fun _ => ⟨rfl, rfl⟩⟩
  | some found =>
    have hmem := List.mem_of_find?_eq_some hfind
    have hname : found.name = name := by simpa using List.find?_some hfind
    constructor
    · rintro ⟨hcreated, hbase⟩ file hfile hfname
      -- names are used once
      have heq := List.inj_on_of_nodup_map hnodup hfile hmem (hfname.trans hname.symm)
      rw [heq]
      exact ⟨hcreated, List.length_eq_zero_iff.mp hbase⟩
    · intro h
      obtain ⟨hcreated, hcontent⟩ := h found hmem hname
      exact ⟨hcreated, by simp only [hcontent, List.length_nil]⟩

theorem map_name_appendTo (name bytes : Bytes) (files : List LogFile) :
    (appendTo name bytes files).map (·.name) = files.map (·.name) := by
  simp only [appendTo, List.map_map]
  apply List.map_congr_left
  intro file _
  simp only [Function.comp_apply]
  split <;> rfl

theorem fopen_opened (files : List LogFile) (name : Bytes) (now : LocalTime) (number : Nat) :
    (fopen files name now number).2.opened = now := by
  unfold fopen
  split <;> rfl

namespace RollFileFlush

/-- The open file was created when it was opened, and it was empty, so that `cur_size_` started
    from its size. -/
def OwnFile (s : State) : Prop :=
  ∀ stream, s.roll.fs_ = some stream → stream.created = stream.opened ∧ stream.base = 0

/-- The time of the call has a year of four digits. -/
def Action.FourDigits : Action → Prop
  | .flush _ io => io.now.FourDigits
  | .restart => True

instance : (a : Action) → Decidable a.FourDigits
  | .flush _ io => inferInstanceAs
    (Decidable (1000 ≤ io.now.tm_year + 1900 ∧ io.now.tm_year + 1900 ≤ 9999))
  | .restart => .isTrue trivial

/-- Where a call opens a file, no file is there whose name tells the same, and none at all if
    the base name holds a NUL, unless it was created at that very time and is empty. -/
def Unambiguous (s : State) : Action → Prop
  | .flush _ io =>
    s.crashed = false → s.roll.needsFile → io.opens = true →
      ∀ file ∈ s.files, 0 ∈ s.roll.basename_ ∨ Collide file.created file.number io.now s.roll.cnt_ →
        file.created = io.now ∧ file.content = []
  | .restart => True

instance (t t' : LocalTime) (cnt cnt' : Nat) : Decidable (Collide t cnt t' cnt') :=
  inferInstanceAs (Decidable (_ ∧ _ ∧ _))

instance (s : State) : (a : Action) → Decidable (Unambiguous s a)
  | .flush _ io => inferInstanceAs (Decidable
    (s.crashed = false → s.roll.needsFile → io.opens = true →
      ∀ file ∈ s.files,
        0 ∈ s.roll.basename_ ∨ Collide file.created file.number io.now s.roll.cnt_ →
        file.created = io.now ∧ file.content = []))
  | .restart => .isTrue trivial

/-- The files were named by `CreateLogFileName`. -/
structure Named (basename_ : Bytes) (s : State) : Prop where
  basename_eq : s.roll.basename_ = basename_
  four : ∀ file ∈ s.files, file.created.FourDigits
  name_eq : ∀ file ∈ s.files,
    file.name = (createLogFileName basename_ file.created file.number).cstr
  nodup : (s.files.map (·.name)).Nodup

variable {basename_ : Bytes} {s : State}

/-- Opening a file adds at most one file, named by `CreateLogFileName`. -/
theorem Named.initLogFile (h : Named basename_ s) {io : FlushIo} (hfour : io.now.FourDigits) :
    Named basename_ (RollFileFlush.initLogFile s io) := by
  unfold RollFileFlush.initLogFile
  split
  · cases hopens : io.opens with
    | false => exact ⟨h.basename_eq, h.four, h.name_eq, h.nodup⟩
    | true =>
      unfold fopen
      cases hfind : s.files.find? (·.name = s.roll.nextName io.now) with
      | some found => exact ⟨h.basename_eq, h.four, h.name_eq, h.nodup⟩
      | none =>
        have hfresh : ∀ file ∈ s.files, file.name ≠ s.roll.nextName io.now := by
          simpa only [List.find?_eq_none, decide_eq_true_eq] using hfind
        constructor
        · exact h.basename_eq
        · intro file hfile
          obtain hfile | hfile := List.mem_append.mp hfile
          · exact h.four file hfile
          · rw [List.mem_singleton.mp hfile]
            exact hfour
        · intro file hfile
          obtain hfile | hfile := List.mem_append.mp hfile
          · exact h.name_eq file hfile
          · rw [List.mem_singleton.mp hfile, ← h.basename_eq]
            rfl
        · simp only [↓reduceIte, List.map_append, List.map_cons, List.map_nil]
          apply List.nodup_append.mpr
          refine ⟨h.nodup, List.nodup_singleton _, ?_⟩
          intro name hname name' hname'
          obtain ⟨file, hfile, rfl⟩ := List.mem_map.mp hname
          rw [List.mem_singleton.mp hname']
          exact hfresh file hfile
  · exact h

theorem Named.appendTo (h : Named basename_ s) (name bytes : Bytes) {roll : RollFileFlush}
    {calls : List (StdioCall × Option Bytes)} {crashed : Bool}
    (hroll : roll.basename_ = basename_) :
    Named basename_ ⟨Mylog.appendTo name bytes s.files, roll, calls, crashed⟩ := by
  have hold : ∀ file ∈ Mylog.appendTo name bytes s.files, ∃ old ∈ s.files,
      old.name = file.name ∧ old.created = file.created ∧ old.number = file.number := by
    intro file hfile
    obtain ⟨old, hmem, rfl⟩ := List.mem_map.mp hfile
    refine ⟨old, hmem, ?_⟩
    split
    · exact ⟨rfl, rfl, rfl⟩
    · exact ⟨rfl, rfl, rfl⟩
  constructor
  · exact hroll
  · intro file hfile
    obtain ⟨old, hmem, -, hcreated, -⟩ := hold file hfile
    rw [← hcreated]
    exact h.four old hmem
  · intro file hfile
    obtain ⟨old, hmem, hname, hcreated, hnumber⟩ := hold file hfile
    rw [← hname, ← hcreated, ← hnumber]
    exact h.name_eq old hmem
  · rw [map_name_appendTo]
    exact h.nodup

theorem named_step {flush_log : Nat} {s' : State} {a : Action} (h : Named basename_ s)
    (hfour : a.FourDigits) (hstep : step flush_log s a = some s') : Named basename_ s' := by
  cases a with
  | restart =>
    cases hstep
    exact ⟨h.basename_eq, h.four, h.name_eq, h.nodup⟩
  | flush chunk io =>
    simp only [step, Option.some.injEq] at hstep
    rw [← hstep]
    split
    · exact h
    · have hinit := h.initLogFile hfour
      unfold flush write
      split
      · exact ⟨hinit.basename_eq, hinit.four, hinit.name_eq, hinit.nodup⟩
      · exact hinit.appendTo _ _ hinit.basename_eq

/-- `Flush` opens a file of its own exactly where no other name tells the same. -/
theorem ownFile_flush_iff {flush_log : Nat} {chunk : Chunk} {io : FlushIo}
    (hnamed : Named basename_ s) (hfour : io.now.FourDigits) (halive : s.crashed = false)
    (hs : OwnFile s) :
    OwnFile (flush flush_log s chunk io) ↔ Unambiguous s (.flush chunk io) := by
  -- writing leaves the stream with what it knows of its file
  have hwrite : OwnFile (flush flush_log s chunk io) ↔ OwnFile (initLogFile s io) := by
    unfold flush write
    cases hfs : (initLogFile s io).roll.fs_ with
    | none => simp only [OwnFile, hfs]
    | some stream => simp only [OwnFile, hfs, Option.some.injEq, forall_eq']
  rw [hwrite, Unambiguous]
  unfold initLogFile
  split
  · rename_i hneeds
    cases hopens : io.opens with
    | false => simp [OwnFile]
    | true =>
      simp only [OwnFile, ↓reduceIte, Option.some.injEq, forall_eq', fopen_opened, halive, hneeds,
        true_implies, fopen_own_iff hnamed.nodup]
      constructor
      · intro h file hfile hcollide
        apply h file hfile
        rw [hnamed.name_eq file hfile, nextName, hnamed.basename_eq]
        rw [hnamed.basename_eq] at hcollide
        exact (cstr_createLogFileName_iff (hnamed.four file hfile) hfour).mpr hcollide
      · intro h file hfile hname
        apply h file hfile
        rw [hnamed.name_eq file hfile, nextName, hnamed.basename_eq] at hname
        rw [hnamed.basename_eq]
        exact (cstr_createLogFileName_iff (hnamed.four file hfile) hfour).mp hname
  · rename_i hneeds
    exact ⟨fun _ _ h => absurd h hneeds, fun _ => hs⟩

theorem named_start (basename_ : Bytes) (max : Nat) :
    Named basename_ (start basename_ max []) := by
  constructor
  · rfl
  · intro file hfile
    cases hfile
  · intro file hfile
    cases hfile
  · exact List.nodup_nil

/-- A step opens a file of its own exactly where the name it makes is unambiguous. -/
theorem ownFile_step_iff {basename_ : Bytes} {max flush_log : Nat} {s s' : State} {a : Action}
    (hnamed : Named basename_ s) (hfour : a.FourDigits) (hs : OwnFile s)
    (hstep : (system basename_ max flush_log []).step s a = some s') :
    OwnFile s' ↔ Unambiguous s a := by
  cases a with
  | restart =>
    cases hstep
    refine ⟨fun _ => trivial, fun _ stream hstream => ?_⟩
    cases hstream
  | flush chunk io =>
    simp only [system, step, Option.some.injEq] at hstep
    rw [← hstep]
    cases halive : s.crashed with
    | true => simp [Unambiguous, halive, hs]
    | false => exact ownFile_flush_iff hnamed hfour halive hs

/-- Two times give different names exactly where they are of different years, or the numbers
    that their other fields make up differ, or the counters do; and the rotations of a program
    that is started again and again all open new files exactly where none of them finds a file
    whose name tells the same. -/
theorem rotation_own_file_iff (basename_ : Bytes) (max flush_log : Nat) (as : List Action)
    (hyears : ∀ a ∈ as, a.FourDigits) :
    (∀ (t t' : LocalTime) (cnt cnt' : Nat), t.FourDigits → t'.FourDigits →
      ((t ≠ t' → createLogFileName basename_ t cnt ≠ createLogFileName basename_ t' cnt') ↔
        t = t' ∨ t.tm_year ≠ t'.tm_year ∨ t.joined ≠ t'.joined ∨ cnt ≠ cnt')) ∧
    ((system basename_ max flush_log []).Always OwnFile (start basename_ max []) as ↔
      (system basename_ max flush_log []).AllSteps Unambiguous (start basename_ max []) as) := by
  constructor
  · intro t t' cnt cnt' ht ht'
    rw [ne_eq, ne_eq, createLogFileName_inj_iff ht ht', Collide]
    tauto
  · have hstart : OwnFile (start basename_ max []) := by
      intro stream hstream
      cases hstream
    apply Transition.always_iff_allSteps_of (I := Named basename_)
      (D := fun _ a => Action.FourDigits a) _ _ _ (named_start basename_ max) hstart
      (Transition.allSteps_of_forall (D := Action.FourDigits) hyears _)
    · intro s a s' hs hfour hstep
      exact named_step hs hfour hstep
    · -- every action is enabled
      intro s a hstep
      cases a with
      | flush chunk io => cases hstep
      | restart => cases hstep
    · intro s a s' hnamed hfour hs hstep
      exact ownFile_step_iff hnamed hfour hs hstep

/-- The start of 11 January 2024. -/
def januaryEleventh : LocalTime := .cut 124 0 11 0 0 0

/-- The start of 1 November 2024. -/
def novemberFirst : LocalTime := .cut 124 10 1 0 0 0

/-- A program that writes one byte on 11 January and, started again, on 1 November. -/
def twoRuns : List Action :=
  [.flush ⟨[97], by decide⟩ ⟨januaryEleventh, true, 1⟩, .restart,
    .flush ⟨[98], by decide⟩ ⟨novemberFirst, true, 1⟩]

theorem fourDigits_twoRuns : ∀ a ∈ twoRuns, a.FourDigits := by
  intro a ha
  obtain rfl | ha := List.mem_cons.mp ha
  · exact ⟨by decide, by decide⟩
  · obtain rfl | ha := List.mem_cons.mp ha
    · trivial
    · rw [List.mem_singleton.mp ha]
      exact ⟨by decide, by decide⟩

/-- A program that fills a file of one byte, goes on to the next one a second later, and is
    started again on another day. -/
def threeFiles : List Action :=
  [.flush ⟨[97], by decide⟩ ⟨januaryEleventh, true, 1⟩,
    .flush ⟨[98], by decide⟩ ⟨.cut 124 0 11 0 0 1, true, 1⟩, .restart,
    .flush ⟨[99], by decide⟩ ⟨.cut 124 1 1 0 0 0, true, 1⟩]

set_option maxRecDepth 4096 in
/-- It opens three files of its own. -/
theorem rotation_own_file_first :
    (system (Bytes.ofString "RollFile_log") 1 1 []).Always OwnFile
      (start (Bytes.ofString "RollFile_log") 1 []) threeFiles := by
  have hyears : ∀ a ∈ threeFiles, a.FourDigits := by decide +kernel
  have hunambiguous : (system (Bytes.ofString "RollFile_log") 1 1 []).AllSteps Unambiguous
      (start (Bytes.ofString "RollFile_log") 1 []) threeFiles := by decide +kernel
  exact (rotation_own_file_iff (Bytes.ofString "RollFile_log") 1 1 threeFiles hyears).2.mpr
    hunambiguous

set_option maxRecDepth 4096 in
/-- The two days have the same name, so the second run goes on with the file of the first. -/
theorem rotation_reopens :
    (¬∀ t t' : LocalTime, t.FourDigits → t'.FourDigits → t ≠ t' →
      createLogFileName (Bytes.ofString "RollFile_log") t 1 ≠
        createLogFileName (Bytes.ofString "RollFile_log") t' 1) ∧
    ¬∀ as : List Action, (∀ a ∈ as, a.FourDigits) →
      (system (Bytes.ofString "RollFile_log") 1048576 1 []).Always OwnFile
        (start (Bytes.ofString "RollFile_log") 1048576 []) as := by
  constructor
  · intro h
    have hne := h januaryEleventh novemberFirst ⟨by decide, by decide⟩ ⟨by decide, by decide⟩
      (by decide)
    exact hne (by decide)
  · intro h
    have hlast := h twoRuns fourDigits_twoRuns
    obtain ⟨hcreated, -⟩ := ((hlast.2 _ rfl).2 _ rfl).2 _ rfl _ rfl
    exact absurd hcreated (by decide)

end RollFileFlush

end Mylog
