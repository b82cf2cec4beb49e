import GinCpp.Http.Grammar

/-!
# Reading header lines

What a whole header line, or the rest of a value, does to an arbitrary request: `scan_line` and
`scan_value`.  Both are inductions over the bytes, one `Parser.step` each.
-/

namespace GinCpp.Http

open Scanner

/-! ## Headers in a request -/

theorem modifyBack_concat (f : Header → Header) (headers : List Header) (header : Header) :
    modifyBack f (headers ++ [header]) = headers ++ [f header] := by
  induction headers with
  | nil => rfl
  | cons first headers ih =>
      cases headers with
      | nil => rfl
      | cons second headers => exact congrArg (first :: ·) ih

theorem modifyBack_modifyBack (f g : Header → Header) (headers : List Header) :
    modifyBack g (modifyBack f headers) = modifyBack (g ∘ f) headers := by
  induction headers using List.reverseRecOn with
  | nil => rfl
  | append_singleton headers header _ => simp [modifyBack_concat]

theorem modifyBack_congr {f : Header → Header} (hf : ∀ header, f header = header)
    (headers : List Header) : modifyBack f headers = headers := by
  induction headers using List.reverseRecOn with
  | nil => rfl
  | append_singleton headers header _ => rw [modifyBack_concat, hf]

theorem map_name_modifyBack {f : Header → Header} (hf : ∀ header, (f header).name = header.name)
    (headers : List Header) :
    (modifyBack f headers).map Header.name = headers.map Header.name := by
  induction headers using List.reverseRecOn with
  | nil => rfl
  | append_singleton headers header _ => simp [modifyBack_concat, hf]

namespace Request

/-- The request with `text` after the value of its last header. -/
def appendValue (req : Request) (text : Str) : Request :=
  { req with headers := modifyBack (fun h => { h with value := h.value ++ text }) req.headers }

def addHeader (req : Request) (header : Header) : Request :=
  { req with headers := req.headers ++ [header] }

@[simp] theorem appendValue_nil (req : Request) : req.appendValue [] = req := by
  rw [appendValue, modifyBack_congr fun header => by simp]

theorem appendValue_pushValue (req : Request) (c : UInt8) (text : Str) :
    (req.pushValue c).appendValue text = req.appendValue (c :: text) := by
  simp [pushValue, appendValue, modifyBack_modifyBack, Function.comp_def]

theorem pushName_addHeader (req : Request) (name value : Str) (c : UInt8) :
    (req.addHeader ⟨name, value⟩).pushName c = req.addHeader ⟨name ++ [c], value⟩ := by
  simp [pushName, addHeader, modifyBack_concat]

theorem appendValue_addHeader (req : Request) (name value text : Str) :
    (req.addHeader ⟨name, value⟩).appendValue text = req.addHeader ⟨name, value ++ text⟩ := by
  simp [appendValue, addHeader, modifyBack_concat]

theorem map_name_appendValue (req : Request) (text : Str) :
    (req.appendValue text).headers.map Header.name = req.headers.map Header.name :=
  map_name_modifyBack (f := fun h => { h with value := h.value ++ text }) (fun _ => rfl) _

end Request

/-! ## Header lines -/

/-- A header that can be sent in one line. -/
def Header.wellFormed (header : Header) : Bool :=
  !header.name.isEmpty && header.name.all nameByte && header.value.all (!iscntrl ·)

/-- `name: value`, with the line end. -/
def Header.line (header : Header) : Str :=
  header.name ++ ascii ": " ++ header.value ++ [CR, LF]

theorem ne_CR_of_not_iscntrl {c : UInt8} (h : iscntrl c = false) : c ≠ CR := by
  rintro rfl
  exact absurd h (by decide)

theorem nameByte_iff {c : UInt8} :
    nameByte c = true ↔ iscntrl c = false ∧ c ≠ COLON ∧ c ≠ SP := by
  simp [nameByte, and_assoc]

/-- A name begins. -/
theorem step_nameByte {c : UInt8} (h : nameByte c = true) (req : Request) :
    Parser.step (⟨.headerLineStart⟩, req) c = .ok (⟨.headerName⟩, req.addHeader ⟨[c], []⟩) := by
  obtain ⟨hcntrl, hcolon, hsp⟩ := nameByte_iff.mp h
  have htab : c ≠ HTAB := by
    rintro rfl
    exact absurd hcntrl (by decide)
  simp [Parser.step, ne_CR_of_not_iscntrl hcntrl, htab, hcntrl, hcolon, hsp, Request.pushHeader,
    Request.addHeader]

/-- The rest of a value. -/
theorem scan_value {text : Str} (htext : ∀ c ∈ text, iscntrl c = false) (req : Request) (w : Str) :
    scan Parser.step (⟨.headerValue⟩, req) (text ++ w) =
      scan Parser.step (⟨.headerValue⟩, req.appendValue text) w := by
  induction text generalizing req with
  | nil => rw [List.nil_append, Request.appendValue_nil]
  | cons c text ih =>
      obtain ⟨hc, htext⟩ := List.forall_mem_cons.mp htext
      have hstep : Parser.step (⟨.headerValue⟩, req) c = .ok (⟨.headerValue⟩, req.pushValue c) := by
        simp [Parser.step, ne_CR_of_not_iscntrl hc, hc]
      rw [List.cons_append, scan_cons_ok hstep, ih htext, Request.appendValue_pushValue]

/-- The rest of a name. -/
theorem scan_name {text : Str} (htext : ∀ c ∈ text, nameByte c = true) (req : Request)
    (name : Str) (w : Str) :
    scan Parser.step (⟨.headerName⟩, req.addHeader ⟨name, []⟩) (text ++ w) =
      scan Parser.step (⟨.headerName⟩, req.addHeader ⟨name ++ text, []⟩) w := by
  apply scan_collect fun name => ((⟨.headerName⟩ : Parser), req.addHeader ⟨name, []⟩)
  intro name c hc
  obtain ⟨hcntrl, hcolon, hsp⟩ := nameByte_iff.mp (htext c hc)
  simp [Parser.step, hcolon, hcntrl, hsp, Request.pushName_addHeader]

/-- A line end after a value. -/
theorem scan_lineEnd (req : Request) (w : Str) :
    scan Parser.step (⟨.headerValue⟩, req) (CR :: LF :: w) =
      scan Parser.step (⟨.headerLineStart⟩, req) w := rfl

/-- **One header line adds one header.** -/
theorem scan_line {header : Header} (h : header.wellFormed = true) (req : Request) (w : Str) :
    scan Parser.step (⟨.headerLineStart⟩, req) (header.line ++ w) =
      scan Parser.step (⟨.headerLineStart⟩, req.addHeader header) w := by
  obtain ⟨name, value⟩ := header
  simp only [Header.wellFormed, Bool.and_eq_true, Bool.not_eq_true', List.all_eq_true,
    List.isEmpty_eq_false_iff] at h
  obtain ⟨⟨hne, hname⟩, hvalue⟩ := h
  obtain ⟨c, name, rfl⟩ := List.exists_cons_of_ne_nil hne
  obtain ⟨hc, hname⟩ := List.forall_mem_cons.mp hname
  have hcolonSp : ∀ req : Request, ∀ w : Str,
      scan Parser.step (⟨.headerName⟩, req) (ascii ": " ++ w) =
        scan Parser.step (⟨.headerValue⟩, req) w := fun _ _ => rfl
  calc scan Parser.step (⟨.headerLineStart⟩, req) (Header.line ⟨c :: name, value⟩ ++ w)
      = scan Parser.step (⟨.headerLineStart⟩, req)
          (c :: (name ++ (ascii ": " ++ (value ++ CR :: LF :: w)))) := by simp [Header.line]
    _ = scan Parser.step (⟨.headerValue⟩, req.addHeader ⟨c :: name, []⟩)
          (value ++ CR :: LF :: w) := by
        rw [scan_cons_ok (step_nameByte hc req), scan_name hname, hcolonSp]
        rfl
    _ = scan Parser.step (⟨.headerLineStart⟩, req.addHeader ⟨c :: name, value⟩) w := by
        rw [scan_value (by simpa using hvalue), scan_lineEnd, Request.appendValue_addHeader,
          List.nil_append]

end GinCpp.Http
