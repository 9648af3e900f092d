import AsyncLogStorage.ForStd.List
import AsyncLogStorage.Native.ListPage
import AsyncLogStorage.Spec.LoggerShutdown

/-!
# The lines of a log

`LogMessage::format` ends each record with a newline, and nothing else tells the records of a log
from each other. A newline in a text that is logged starts what looks like a record of its own.

## Key results

- `isLine_format_iff`: which records are one line
- `determines_iff`: for which calls the bytes of a log determine its records
- `lines_pushed`: the lines of what a logger has handed to `Push`
-/

namespace Mylog

open Bytes (IsLine lines)

namespace LogMessage

/-- A record without the newline that ends it. -/
def text (m : LogMessage) : Bytes :=
  Bytes.ofString "[" ++ (m.timestamp_ ++ (Bytes.ofString "][" ++ (m.tid_ ++
    (Bytes.ofString "][" ++ (m.level_.toBytes ++ (Bytes.ofString "][" ++ (m.logger_name_ ++
    (Bytes.ofString "][" ++ (m.filename_ ++ (Bytes.ofString ":" ++
    (Bytes.ofString (toString m.line_) ++ (Bytes.ofString "]\t" ++ m.message_))))))))))))

theorem format_eq (m : LogMessage) : m.format = m.text ++ [10] := by
  simp only [format, text, List.append_assoc]
  rfl

/-- What `strftime` and the stream print of a time and of a thread has no newline, and no
    bracket. -/
structure Printed (m : LogMessage) : Prop where
  timestamp_ : 10 ∉ m.timestamp_ ∧ 93 ∉ m.timestamp_
  tid_ : 10 ∉ m.tid_ ∧ 93 ∉ m.tid_

/-- The texts that are logged have no newline. -/
structure NoNewline (m : LogMessage) : Prop where
  message_ : 10 ∉ m.message_
  logger_name_ : 10 ∉ m.logger_name_
  filename_ : 10 ∉ m.filename_

/-- The names of the logger and of the file have no bracket. -/
structure NoBracket (m : LogMessage) : Prop where
  logger_name_ : 93 ∉ m.logger_name_
  filename_ : 93 ∉ m.filename_

/-- A record is one line exactly where no text in it has a newline. -/
theorem isLine_format_iff {m : LogMessage} (hm : m.Printed) : IsLine m.format ↔ m.NoNewline := by
  have hlevel : 10 ∉ m.level_.toBytes := by
    cases m.level_ <;> decide
  have hline : 10 ∉ Bytes.ofString (toString m.line_) := fun h =>
    absurd (Bytes.isDigit_of_mem_nat h).1 (by decide)
  have hopen : 10 ∉ Bytes.ofString "[" := by decide
  have hbetween : 10 ∉ Bytes.ofString "][" := by decide
  have hcolon : 10 ∉ Bytes.ofString ":" := by decide
  have htab : 10 ∉ Bytes.ofString "]\t" := by decide
  rw [format_eq, Bytes.isLine_append_newline]
  simp only [text, List.mem_append, hopen, hbetween, hcolon, htab, hlevel, hline, hm.timestamp_.1,
    hm.tid_.1, false_or, not_or]
  constructor
  · rintro ⟨hlogger, hfile, hmessage⟩
    exact ⟨hmessage, hlogger, hfile⟩
  · intro h
    exact ⟨h.logger_name_, h.filename_, h.message_⟩

theorem bracket_not_mem_level (level : LogLevel) : 93 ∉ level.toBytes := by
  cases level <;> decide

theorem level_inj {level level' : LogLevel} (h : level.toBytes = level'.toBytes) :
    level = level' := by
  cases level <;> cases level' <;> first | rfl | exact absurd h (by decide)

/-- The file and the line, as they are printed. -/
def place (m : LogMessage) : Bytes := m.filename_ ++ 58 :: Bytes.ofString (toString m.line_)

theorem place_inj {m m' : LogMessage} :
    m.place = m'.place ↔ m.filename_ = m'.filename_ ∧ m.line_ = m'.line_ := by
  have hdigits : ∀ n : Nat, 58 ∉ Bytes.ofString (toString n) := fun n hmem =>
    absurd (Bytes.isDigit_of_mem_nat hmem).2 (by decide)
  rw [place, place, List.append_cons_inj_right (hdigits _) (hdigits _), Bytes.ofString_nat_inj]

theorem NoBracket.place {m : LogMessage} (h : m.NoBracket) : 93 ∉ m.place := by
  intro hmem
  obtain hmem | hmem := List.mem_append.mp hmem
  · exact h.filename_ hmem
  · obtain hmem | hmem := List.mem_cons.mp hmem
    · cases hmem
    · exact absurd (Bytes.isDigit_of_mem_nat hmem).2 (by decide)

/-- A record, with each closing bracket behind what it closes. -/
theorem text_eq (m : LogMessage) :
    m.text = 91 :: (m.timestamp_ ++ 93 :: 91 :: (m.tid_ ++ 93 :: 91 :: (m.level_.toBytes ++
      93 :: 91 :: (m.logger_name_ ++ 93 :: 91 :: (m.place ++ 93 :: 9 :: m.message_))))) := by
  rw [place, List.append_assoc]
  rfl

/-- Where no name has a bracket, a record determines all that was logged. -/
theorem text_inj {m m' : LogMessage} (hm : m.Printed) (hm' : m'.Printed) (hb : m.NoBracket)
    (hb' : m'.NoBracket) (h : m.text = m'.text) : m = m' := by
  -- each closing bracket is the first one behind the last
  rw [text_eq, text_eq, List.cons.injEq, and_iff_right rfl,
    List.append_cons_inj_left hm.timestamp_.2 hm'.timestamp_.2, List.cons.injEq,
    and_iff_right rfl, List.append_cons_inj_left hm.tid_.2 hm'.tid_.2, List.cons.injEq,
    and_iff_right rfl, List.append_cons_inj_left (bracket_not_mem_level _)
      (bracket_not_mem_level _), List.cons.injEq, and_iff_right rfl,
    List.append_cons_inj_left hb.logger_name_ hb'.logger_name_, List.cons.injEq,
    and_iff_right rfl, List.append_cons_inj_left hb.place hb'.place, List.cons.injEq,
    and_iff_right rfl, place_inj] at h
  obtain ⟨htime, htid, hlevel, hlogger, ⟨hfile, hline⟩, hmessage⟩ := h
  cases m
  cases m'
  simp only [LogMessage.mk.injEq]
  exact ⟨level_inj hlevel, hfile, hline, htime, hmessage, hlogger, htid⟩

/-- Sequences of such records determine all that was logged. -/
theorem map_format_inj {ms ms' : List LogMessage} (hm : ∀ m ∈ ms, m.Printed ∧ m.NoBracket)
    (hm' : ∀ m ∈ ms', m.Printed ∧ m.NoBracket) (h : ms.map format = ms'.map format) :
    ms = ms' := by
  induction ms generalizing ms' with
  | nil => exact (List.map_eq_nil_iff.mp h.symm).symm
  | cons m ms ih =>
    cases ms' with
    | nil => cases h
    | cons m' ms' =>
      obtain ⟨hfirst, hrest⟩ := List.cons.inj h
      obtain ⟨hprinted, hbracket⟩ := hm m List.mem_cons_self
      obtain ⟨hprinted', hbracket'⟩ := hm' m' List.mem_cons_self
      rw [format_eq, format_eq] at hfirst
      rw [text_inj hprinted hprinted' hbracket hbracket' (List.append_cancel_right hfirst),
        ih (fun l hl => hm l (List.mem_cons_of_mem m hl))
          (fun l hl => hm' l (List.mem_cons_of_mem m' hl)) hrest]

end LogMessage

/-! ## The bytes of a sequence of calls -/

/-- What a sequence of log calls writes. -/
def written (ms : List LogMessage) : Bytes := ms.flatMap LogMessage.format

/-- Each record is one line, and the lines are the records. -/
structure OneLineEach (ms : List LogMessage) : Prop where
  line : ∀ m ∈ ms, IsLine m.format
  split : lines (written ms) = ms.map LogMessage.format

/-- The bytes of a log tell two sequences of calls apart: the lines are the records of each, so
    they write the same only if their records are the same, and then, where no name has a
    bracket, they logged the same. -/
structure Determines (ms ms' : List LogMessage) : Prop where
  left : OneLineEach ms
  right : OneLineEach ms'
  records : written ms = written ms' → ms.map LogMessage.format = ms'.map LogMessage.format
  messages : (∀ m ∈ ms, m.NoBracket) → (∀ m ∈ ms', m.NoBracket) → written ms = written ms' →
    ms = ms'

theorem lines_written {ms : List LogMessage} (h : ∀ m ∈ ms, IsLine m.format) :
    lines (written ms) = ms.map LogMessage.format := by
  rw [written, List.flatMap_def]
  apply Bytes.lines_flatten
  intro l hl
  obtain ⟨m, hm, rfl⟩ := List.mem_map.mp hl
  exact h m hm

theorem oneLineEach_iff {ms : List LogMessage} (hprinted : ∀ m ∈ ms, m.Printed) :
    OneLineEach ms ↔ ∀ m ∈ ms, m.NoNewline := by
  constructor
  · intro h m hm
    exact (LogMessage.isLine_format_iff (hprinted m hm)).mp (h.line m hm)
  · intro h
    have hline : ∀ m ∈ ms, IsLine m.format := fun m hm =>
      (LogMessage.isLine_format_iff (hprinted m hm)).mpr (h m hm)
    exact ⟨hline, lines_written hline⟩

/-- The bytes of a log determine its records exactly where no text that is logged has a newline. -/
theorem determines_iff {ms ms' : List LogMessage} (hprinted : ∀ m ∈ ms, m.Printed)
    (hprinted' : ∀ m ∈ ms', m.Printed) :
    Determines ms ms' ↔ (∀ m ∈ ms, m.NoNewline) ∧ ∀ m ∈ ms', m.NoNewline := by
  constructor
  · intro h
    exact ⟨(oneLineEach_iff hprinted).mp h.left, (oneLineEach_iff hprinted').mp h.right⟩
  · rintro ⟨hms, hms'⟩
    have hleft := (oneLineEach_iff hprinted).mpr hms
    have hright := (oneLineEach_iff hprinted').mpr hms'
    have hrecords : written ms = written ms' →
        ms.map LogMessage.format = ms'.map LogMessage.format := by
      intro h
      rw [← hleft.split, h, hright.split]
    apply Determines.mk hleft hright hrecords
    -- the lines are the same, and each line tells what was logged
    intro hbracket hbracket' h
    exact LogMessage.map_format_inj (fun m hm => ⟨hprinted m hm, hbracket m hm⟩)
      (fun m hm => ⟨hprinted' m hm, hbracket' m hm⟩) (hrecords h)

/-- The first record of a request, which `GenHandler` logs of its path unless `UrlDecode` rejects
    it. What the handlers log behind it is left out. -/
def requestRecords (path : Bytes) : List LogMessage :=
  ((Storage.urlDecode path).map fun path =>
    { level_ := .INFO
      filename_ := Bytes.ofString "Service.hpp"
      line_ := 83
      timestamp_ := Bytes.ofString "2024-01-01 00:00:00"
      message_ := Storage.Service.genHandlerInfo path
      logger_name_ := Bytes.ofString "cloud_storage"
      tid_ := Bytes.ofString "1" : LogMessage }).toList

theorem printed_of_mem_requestRecords {path : Bytes} {m : LogMessage}
    (h : m ∈ requestRecords path) : m.Printed := by
  have htime : 10 ∉ Bytes.ofString "2024-01-01 00:00:00" ∧
      93 ∉ Bytes.ofString "2024-01-01 00:00:00" := by decide
  have htid : 10 ∉ Bytes.ofString "1" ∧ 93 ∉ Bytes.ofString "1" := by decide
  rw [requestRecords, Option.mem_toList, Option.map_eq_some_iff] at h
  obtain ⟨_, -, rfl⟩ := h
  exact ⟨htime, htid⟩

/-- The first records of requests for `/` and for `/upload` can be told apart. -/
theorem determines_requests : Determines (requestRecords (Bytes.ofString "/"))
    (requestRecords (Bytes.ofString "/upload")) := by
  have hrecord : ∀ path : Bytes,
      (requestRecords path).all (fun m => decide (10 ∉ m.message_ ∧ 10 ∉ m.logger_name_ ∧
        10 ∉ m.filename_)) = true → ∀ m ∈ requestRecords path, m.NoNewline := by
    intro path hall m hm
    obtain ⟨hmessage, hlogger, hfile⟩ := of_decide_eq_true (List.all_eq_true.mp hall m hm)
    exact ⟨hmessage, hlogger, hfile⟩
  apply (determines_iff (fun _ => printed_of_mem_requestRecords)
    fun _ => printed_of_mem_requestRecords).mpr
  exact ⟨hrecord _ (by decide +kernel), hrecord _ (by decide +kernel)⟩

/-- A path with a newline, and with the record of a request for `/upload` behind it. -/
def forgingPath : Bytes :=
  Bytes.ofString "/%0A%5B2024-01-01%2000:00:00%5D%5B1%5D%5BINFO%5D%5Bcloud_storage%5D" ++
    Bytes.ofString "%5BService.hpp:83%5D%09get%20req,%20uri:%20/upload"

/-- Its first record is taken for those of requests for `/` and for `/upload`. -/
theorem record_forged :
    ¬∀ ms ms' : List LogMessage, (∀ m ∈ ms, m.Printed) → (∀ m ∈ ms', m.Printed) →
      Determines ms ms' := by
  intro h
  have hprinted : ∀ m ∈ requestRecords (Bytes.ofString "/") ++
      requestRecords (Bytes.ofString "/upload"), m.Printed := by
    intro m hm
    obtain hm | hm := List.mem_append.mp hm
    · exact printed_of_mem_requestRecords hm
    · exact printed_of_mem_requestRecords hm
  have hsame : written (requestRecords forgingPath) =
      written (requestRecords (Bytes.ofString "/") ++
        requestRecords (Bytes.ofString "/upload")) := by
    decide +kernel
  have hrecords := (h _ _ (fun _ => printed_of_mem_requestRecords) hprinted).records hsame
  exact absurd hrecords (by decide +kernel)

/-! ## What a logger has pushed -/

namespace AsyncLogger

/-- What is pushed is the record of a call. -/
theorem exists_call_of_mem_pushed {s : State} {p : Nat × Bytes} (hs : Consistent s)
    (hp : p ∈ s.pushed) : ∃ call ∈ s.calls, p.2 = call.logmessage.format := by
  have hlt := hs.pushed p hp
  have hcall : s.calls[p.1]? = some s.calls[p.1] := List.getElem?_eq_getElem hlt
  have hown : p ∈ s.pushed.filter (·.1 = p.1) := List.mem_filter.mpr ⟨hp, by simp⟩
  rw [hs.pushes _ _ hcall] at hown
  split at hown
  · have heq := List.mem_singleton.mp hown
    exact ⟨s.calls[p.1], List.getElem_mem hlt, congrArg Prod.snd heq⟩
  · cases hown

/-- Where no call has logged a newline, the lines of what the logger has handed to `Push` are the
    records that it handed over. -/
theorem lines_pushed {min max exitThread : Int} {s : State}
    (hreach : (system min max exitThread).Reachable s)
    (hcalls : ∀ call ∈ s.calls, call.logmessage.Printed ∧ call.logmessage.NoNewline) :
    lines (s.pushed.flatMap (·.2)) = s.pushed.map (·.2) := by
  rw [List.flatMap_def]
  apply Bytes.lines_flatten
  intro l hl
  obtain ⟨p, hp, rfl⟩ := List.mem_map.mp hl
  obtain ⟨call, hcall, hformat⟩ := exists_call_of_mem_pushed (reachable_consistent hreach) hp
  obtain ⟨hprinted, hnewline⟩ := hcalls call hcall
  rw [hformat]
  exact (LogMessage.isLine_format_iff hprinted).mpr hnewline

end AsyncLogger

end Mylog
