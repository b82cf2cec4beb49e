import GinCpp.Http.ResponseReading
import GinCpp.Logging.Formatter
import GinCpp.Table.Basic

/-!
# The log as text

`TextFormatter::format` writes words with a space between them, and `logging/sinks.cpp` ends each
message with a newline.  The log is a table, and it is read back if and only if the texts of the
records are words (`readsBack_iff`).  The method and the path of a request that the parser accepted
are.
-/

namespace GinCpp.Logging

open Http Table

/-! ## Sinks -/

/-- What a stream has been given after `<< message << std::endl`. -/
def putLine (written message : Str) : Str := written ++ message ++ [LF]

/-- `ConsoleSink::submit`. -/
def ConsoleSink.submit (console message : Str) : Str := putLine console message

/-- `FileSink::submit`.  The file is opened with `std::ios::app`. -/
def FileSink.submit (file message : Str) : Str := putLine file message

/-! ## Words -/

/-- A text without a space and without a newline. -/
def Word (text : Str) : Prop := SP ∉ text ∧ LF ∉ text

instance (text : Str) : Decidable (Word text) := inferInstanceAs (Decidable (_ ∧ _))

variable {text more : Str} {localtime : ℤ → BrokenDownTime} {record : LogRecord}

theorem word_append : Word (text ++ more) ↔ Word text ∧ Word more := by
  simp only [Word, List.mem_append, not_or]
  tauto

theorem word_of_isdigit (h : ∀ c ∈ text, isdigit c = true) : Word text :=
  ⟨fun hc => Bool.false_ne_true (h SP hc), fun hc => Bool.false_ne_true (h LF hc)⟩

theorem word_toString (n : ℕ) : Word (Http.toString n) :=
  word_of_isdigit fun _ hc => isdigit_of_mem_toString hc

theorem word_padded (width n : ℕ) : Word (padded width n) := by
  refine word_of_isdigit fun c hc => ?_
  rcases List.mem_append.mp hc with hzero | hdigit
  · rw [List.eq_of_mem_replicate hzero]
    rfl
  · exact isdigit_of_mem_toString hdigit

theorem word_intToString (n : ℤ) : Word (intToString n) := by
  refine word_append.mpr ⟨?_, word_toString _⟩
  split_ifs <;> decide

theorem word_fixed (latency : Double) : Word latency.fixed := by
  have hsign : ∀ negative : Bool, Word (if negative then ascii "-" else []) := by decide
  cases latency with
  | finite negative mantissa exponent =>
      have hdot : Word (ascii ".") := by decide
      exact word_append.mpr ⟨word_append.mpr ⟨word_append.mpr ⟨hsign negative, word_toString _⟩,
        hdot⟩, word_padded _ _⟩
  | infinite negative => exact word_append.mpr ⟨hsign negative, by decide⟩
  | nan negative => exact word_append.mpr ⟨hsign negative, by decide⟩

/-! ## Lines -/

/-- `%Y-%m-%d`. -/
def date (t : BrokenDownTime) : Str :=
  Http.toString t.year ++ ascii "-" ++ padded 2 t.month ++ ascii "-" ++ padded 2 t.day

/-- `%H:%M:%S`. -/
def clock (t : BrokenDownTime) : Str :=
  padded 2 t.hour ++ ascii ":" ++ padded 2 t.minute ++ ascii ":" ++ padded 2 t.second

/-- The words of a line. -/
def LogRecord.row (localtime : ℤ → BrokenDownTime) (record : LogRecord) : List Str :=
  let t := localtime (toTimeT record.timestamp)
  [ascii "[" ++ date t, clock t ++ ascii "]", record.remoteIp, ascii "\"" ++ record.method,
    record.path ++ ascii "\"", intToString record.statusCode, record.latency.fixed ++ ascii "s"]

/-- The texts of a record are words. -/
structure LogRecord.Plain (record : LogRecord) : Prop where
  remoteIp : Word record.remoteIp
  method : Word record.method
  path : Word record.path

theorem format_eq : TextFormatter.format localtime record =
    [SP].intercalate (record.row localtime) := by
  have hspace : ascii " " = [SP] := rfl
  have hclose : ascii "] " = ascii "]" ++ [SP] := rfl
  have hopen : ascii " \"" = [SP] ++ ascii "\"" := rfl
  have hquote : ascii "\" " = ascii "\"" ++ [SP] := rfl
  simp only [TextFormatter.format, timeToString, LogRecord.row, date, clock, hspace, hclose, hopen,
    hquote, List.intercalate_cons_cons, List.intercalate_singleton, List.append_assoc]

theorem word_date (t : BrokenDownTime) : Word (date t) := by
  have hdash : Word (ascii "-") := by decide
  simp only [date, word_append, word_toString, word_padded, hdash, and_self]

theorem word_clock (t : BrokenDownTime) : Word (clock t) := by
  have hcolon : Word (ascii ":") := by decide
  simp only [clock, word_append, word_padded, hcolon, and_self]

theorem unbroken_row_iff : Unbroken SP LF (record.row localtime) ↔ record.Plain := by
  have hmarks : Word (ascii "[") ∧ Word (ascii "]") ∧ Word (ascii "\"") ∧ Word (ascii "s") := by
    decide
  obtain ⟨hopen, hclose, hquote, hs⟩ := hmarks
  have hunbroken : Unbroken SP LF (record.row localtime) ↔
      ∀ field ∈ record.row localtime, Word field := Iff.rfl
  rw [hunbroken]
  simp only [LogRecord.row, List.forall_mem_cons, word_append, hopen, hclose, hquote, hs,
    word_date, word_clock, word_intToString, word_fixed, true_and, and_true, List.not_mem_nil,
    false_imp_iff, implies_true]
  exact ⟨fun ⟨hip, hmethod, hpath⟩ => ⟨hip, hmethod, hpath⟩,
    fun h => ⟨h.remoteIp, h.method, h.path⟩⟩

/-! ## What a line shows -/

theorem toString_inj {n m : ℕ} : Http.toString n = Http.toString m ↔ n = m := by
  refine ⟨fun h => ?_, fun h => by rw [h]⟩
  calc n = decimal (Http.toString n) := (decimal_toString n).symm
    _ = decimal (Http.toString m) := by rw [h]
    _ = m := decimal_toString m

/-- A number does not begin with a sign. -/
theorem sign_append_ne (digits : Str) (n : ℕ) : ascii "-" ++ digits ≠ Http.toString n := by
  intro h
  have hmem : '-'.toUInt8 ∈ Http.toString n := by
    rw [← h]
    exact List.mem_cons_self
  exact Bool.false_ne_true (isdigit_of_mem_toString hmem)

theorem intToString_inj {n m : ℤ} : intToString n = intToString m ↔ n = m := by
  refine ⟨fun h => ?_, fun h => by rw [h]⟩
  unfold intToString at h
  split_ifs at h with hn hm hm
  · have habs := toString_inj.mp (List.append_cancel_left h)
    omega
  · exact absurd h (sign_append_ne _ _)
  · exact absurd h.symm (sign_append_ne _ _)
  · have habs := toString_inj.mp h
    omega

/-- What can be seen of a record in the log: the time to the second, and the latency to the
microsecond. -/
def LogRecord.shown (localtime : ℤ → BrokenDownTime) (record : LogRecord) :
    Str × Str × Str × Str × ℤ × Str :=
  (timeToString localtime record.timestamp, record.remoteIp, record.method, record.path,
    record.statusCode, record.latency.fixed)

theorem timeToString_eq (localtime : ℤ → BrokenDownTime) (timestamp : ℤ) :
    timeToString localtime timestamp = date (localtime (toTimeT timestamp)) ++
      SP :: clock (localtime (toTimeT timestamp)) := by
  have hspace : ascii " " = [SP] := rfl
  simp only [timeToString, date, clock, hspace, List.append_assoc, List.cons_append,
    List.nil_append]

/-- A row is what is shown. -/
theorem row_eq_iff {record' : LogRecord} : record.row localtime = record'.row localtime ↔
    record.shown localtime = record'.shown localtime := by
  have htime : ∀ t t', date t ++ SP :: clock t = date t' ++ SP :: clock t' ↔
      date t = date t' ∧ clock t = clock t' := fun t t' => by
    rw [List.append_cons_inj_of_notMem (word_date t).1 (word_clock t).1]
    simp only [true_and]
  simp only [LogRecord.row, LogRecord.shown, timeToString_eq, htime, List.cons.injEq,
    Prod.mk.injEq, List.append_cancel_left_eq, List.append_cancel_right_eq, intToString_inj,
    and_true, and_assoc]

/-- Of records whose texts are words, the line is what is shown. -/
theorem format_eq_iff {record' : LogRecord} (h : record.Plain) (h' : record'.Plain) :
    TextFormatter.format localtime record = TextFormatter.format localtime record' ↔
      record.shown localtime = record'.shown localtime := by
  have hfields : ∀ {record : LogRecord}, record.Plain →
      (TextFormatter.format localtime record).splitOn SP = record.row localtime := by
    intro record h
    rw [format_eq]
    exact List.splitOn_intercalate SP (fun field hfield => (unbroken_row_iff.mpr h field hfield).1)
      (List.cons_ne_nil _ _)
  rw [← row_eq_iff]
  constructor
  · intro hline
    rw [← hfields h, ← hfields h', hline]
  · intro hrow
    rw [format_eq, format_eq, hrow]

/-! ## The log -/

/-- The file after some records have been submitted, one after another. -/
def submitAll (localtime : ℤ → BrokenDownTime) (file : Str) (records : List LogRecord) : Str :=
  records.foldl (fun file record => FileSink.submit file (TextFormatter.format localtime record))
    file

theorem submitAll_eq (localtime : ℤ → BrokenDownTime) (file : Str) (records : List LogRecord) :
    submitAll localtime file records =
      file ++ Table.text SP LF (records.map (·.row localtime)) := by
  induction records generalizing file with
  | nil => exact (List.append_nil file).symm
  | cons record records ih =>
      change submitAll localtime (FileSink.submit file _) records = _
      rw [ih, FileSink.submit, putLine, format_eq, List.map_cons, Table.text, Table.text,
        List.flatMap_cons]
      simp only [List.append_assoc]

/-! ## Requests -/

/-- The method and the target of a request are words. -/
structure Worded (req : Request) : Prop where
  method : Word req.method
  uri : Word req.uri

theorem word_singleton {c : UInt8} (hspace : c ≠ SP) (hcntrl : iscntrl c = false) : Word [c] := by
  constructor
  · rw [List.mem_singleton]
    exact Ne.symm hspace
  · rw [List.mem_singleton]
    rintro rfl
    cases hcntrl

theorem word_of_isalpha {c : UInt8} (h : isalpha c = true) : Word [c] := by
  constructor
  · rw [List.mem_singleton]
    rintro rfl
    cases h
  · rw [List.mem_singleton]
    rintro rfl
    cases h

/-- Each state that fills in the request line checks its byte. -/
theorem Worded.step {current next : Parser × Request} {c : UInt8} (h : Worded current.2)
    (hstep : Parser.step current c = .ok next) : Worded next.2 := by
  obtain ⟨⟨state⟩, req⟩ := current
  cases state
  case methodStart =>
    simp only [Parser.step] at hstep
    split_ifs at hstep with halpha
    cases hstep
    exact ⟨word_append.mpr ⟨h.method, word_of_isalpha halpha⟩, h.uri⟩
  case method =>
    simp only [Parser.step] at hstep
    split_ifs at hstep with hspace halpha <;> cases hstep
    · exact h
    · exact ⟨word_append.mpr ⟨h.method, word_of_isalpha halpha⟩, h.uri⟩
  case uri =>
    simp only [Parser.step] at hstep
    split_ifs at hstep with hspace hcntrl <;> cases hstep
    · exact h
    · exact ⟨h.method, word_append.mpr ⟨h.uri, word_singleton hspace (by simpa using hcntrl)⟩⟩
  all_goals
    simp only [Parser.step, expect] at hstep
    split_ifs at hstep <;> cases hstep <;> exact ⟨h.method, h.uri⟩

theorem worded_parseChunks (major minor : Int) (chunks : List Str) :
    Worded (Parser.parseChunks {} (.empty major minor) chunks).2.1 := by
  have hempty : Worded (Request.empty major minor) :=
    ⟨⟨List.not_mem_nil, List.not_mem_nil⟩, List.not_mem_nil, List.not_mem_nil⟩
  rw [Parser.parseChunks_eq]
  exact Scanner.scan_induction (P := fun current : Parser × Request => Worded current.2)
    (fun _ _ _ hcurrent hstep => hcurrent.step hstep) hempty

theorem Worded.getPath {req : Request} (h : Worded req) : Word req.getPath :=
  ⟨fun hc => h.uri.1 ((List.takeWhile_sublist _).mem hc),
    fun hc => h.uri.2 ((List.takeWhile_sublist _).mem hc)⟩

/-- **The log is read back** if and only if the texts of the records are words: behind rows that
are there already, the rows of the records are read.  The lines of such records are equal if and
only if they show the same.  Whatever has been sent, the method and the path that the parser has
read are words. -/
theorem TextFormatter.readsBack_iff (localtime : ℤ → BrokenDownTime) {file : Str}
    {old : List (List Str)} (hfile : read SP LF file = some old) (records : List LogRecord) :
    (read SP LF (submitAll localtime file records) =
        some (old ++ records.map (·.row localtime)) ↔ ∀ record ∈ records, record.Plain) ∧
      (∀ record record' : LogRecord, record.Plain → record'.Plain →
        (TextFormatter.format localtime record = TextFormatter.format localtime record' ↔
          record.shown localtime = record'.shown localtime)) ∧
      ∀ major minor chunks, let req := (Parser.parseChunks {} (.empty major minor) chunks).2.1
        ∀ record : LogRecord, Word record.remoteIp → record.method = req.getMethod →
          record.path = req.getPath → record.Plain := by
  refine ⟨?_, fun _ _ => format_eq_iff, ?_⟩
  · have hrows : ∀ row ∈ records.map (·.row localtime), row ≠ [] := by
      intro row hrow
      obtain ⟨record, -, rfl⟩ := List.mem_map.mp hrow
      exact List.cons_ne_nil _ _
    rw [submitAll_eq, read_append_text_iff (by decide) hfile hrows, List.forall_mem_map]
    exact forall₂_congr fun _ _ => unbroken_row_iff
  · intro major minor chunks req record hip hmethod hpath
    have hreq : Worded req := worded_parseChunks major minor chunks
    exact ⟨hip, hmethod ▸ hreq.method, hpath ▸ hreq.getPath⟩

/-- The first instant of an epoch. -/
def epoch : BrokenDownTime := ⟨1970, 1, 1, 0, 0, 0⟩

/-- A request that is answered at once, and one for a path with a space in it. -/
def twoRecords : List LogRecord :=
  [⟨0, ascii "127.0.0.1", ascii "GET", ascii "/", 200, .finite false 0 0⟩,
    ⟨0, ascii "127.0.0.1", ascii "GET", ascii "/a b", 404, .finite false 0 0⟩]

theorem TextFormatter.readsBack_iff_twoRecords :
    read SP LF (submitAll (fun _ => epoch) [] (twoRecords.take 1)) =
        some ((twoRecords.take 1).map (·.row fun _ => epoch)) ∧
      read SP LF (submitAll (fun _ => epoch) [] twoRecords) ≠
        some (twoRecords.map (·.row fun _ => epoch)) := by
  constructor
  · refine (TextFormatter.readsBack_iff (fun _ => epoch) read_nil (twoRecords.take 1)).1.mpr ?_
    rw [twoRecords, List.take_succ_cons, List.take_zero, List.forall_mem_singleton]
    exact ⟨by decide, by decide, by decide⟩
  · intro h
    have hplain := (TextFormatter.readsBack_iff (fun _ => epoch) read_nil twoRecords).1.mp h
    have hword := (hplain _ (List.mem_cons_of_mem _ List.mem_cons_self)).path
    exact absurd hword (by decide)

end GinCpp.Logging
