import GinCpp.Http.Message
import GinCpp.Loop.Basic
import GinCpp.Utils.Config
import Mathlib.Algebra.Group.Int.Defs
import Mathlib.Algebra.Group.Nat.Defs
import Mathlib.Logic.Function.Basic

/-!
# The compressor

`utils/compressor.cpp`.  zlib is not part of the repository: `Zlib` is what the compressor calls of
it, and `Zlib.Contract` is what its manual promises.  In every round of the loop, what has been
collected and what is still pending are together the whole stream: `collected_turn`.  The stream is
that of the bytes zlib was told of, and their number was put in a field of 32 bits.
-/

namespace GinCpp.Utils

/-! ## zlib -/

abbrev Z_OK : ℤ := 0
abbrev Z_STREAM_END : ℤ := 1

/-- `z_stream`, with the state that is internal to the library.  `next_out` and `avail_out` are set
before each call, and are arguments of it. -/
structure ZStream (σ : Type) where
  nextIn : Str
  availIn : BitVec 32
  totalOut : BitVec 64
  msg : Str
  state : σ

/-- The outcome of a call of `deflate`: `written` is what it has put at `next_out`. -/
structure Deflated (σ : Type) where
  ret : ℤ
  written : Str
  zs : ZStream σ

/-- The calls of the compressor: `deflateInit2` on a stream of zeros, `deflate` with `Z_FINISH`. -/
structure Zlib (σ : Type) where
  deflateInit2 : ℤ × ZStream σ
  deflate : ZStream σ → BitVec 32 → Deflated σ

/-! ## The loop -/

namespace GzipCompressor

/-- `char outbuffer[32768]`. -/
abbrev Buffer := { bytes : Str // bytes.length = 32768 }

/-- The buffer after a write to its front. -/
def Buffer.write (outbuffer : Buffer) (written : Str) : Buffer :=
  ⟨(written ++ outbuffer.1.drop written.length).take 32768, by
    have hlength := outbuffer.2
    rw [List.length_take, List.length_append, List.length_drop]
    omega⟩

/-- The variables of the loop. -/
structure Variables (σ : Type) where
  zs : ZStream σ
  ret : ℤ
  outbuffer : Buffer
  outstring : Str

variable {σ : Type}

/-- The body of the loop. -/
def turn (zlib : Zlib σ) (s : Variables σ) : Variables σ :=
  let result := zlib.deflate s.zs 32768
  let outbuffer := s.outbuffer.write result.written
  let totalOut := result.zs.totalOut.toNat
  { zs := result.zs
    ret := result.ret
    outbuffer
    outstring :=
      if s.outstring.length < totalOut then
        s.outstring ++ outbuffer.1.take (totalOut - s.outstring.length)
      else s.outstring }

/-- The condition of the loop. -/
def isPending (s : Variables σ) : Bool := decide (s.ret = Z_OK)

/-- The variables in front of the loop.  `ret` and `outbuffer` are not initialized, and assigned
before they are read. -/
def start (zlib : Zlib σ) (outbuffer : Buffer) (data : Str) : Variables σ where
  zs := { zlib.deflateInit2.2 with nextIn := data, availIn := BitVec.ofNat 32 data.length }
  ret := Z_OK
  outbuffer
  outstring := []

/-- What follows the loop. -/
def finish (s : Variables σ) : Except Exception Str :=
  if s.ret ≠ Z_STREAM_END then
    .error (.runtimeError
      (ascii "Exception during zlib compression: (" ++ Http.intToString s.ret ++ ascii ") " ++
        s.zs.msg))
  else .ok s.outstring

/-- `compress`, with a loop of at most so many turns behind its first. -/
def compress (zlib : Zlib σ) (outbuffer : Buffer) (data : Str) (turns : ℕ) :
    Option (Except Exception Str) :=
  if data.isEmpty then some (.ok [])
  else if zlib.deflateInit2.1 ≠ Z_OK then
    some (.error (.runtimeError (ascii "deflateInit2 failed while compressing.")))
  else (Loop.runOnce isPending (turn zlib) turns (start zlib outbuffer data)).map finish

end GzipCompressor

/-! ## The contract of zlib -/

/-- What zlib promises about streams that are finished in one go.  `gzip` is the stream of some
bytes, and `Pending zs output` says that `output` is what `zs` has still to put out. -/
structure Zlib.Contract {σ : Type} (zlib : Zlib σ) (gzip : Str → Str)
    (Pending : ZStream σ → Str → Prop) : Prop where
  init : zlib.deflateInit2.1 = Z_OK
  init_totalOut : zlib.deflateInit2.2.totalOut = 0
  /-- The `avail_in` bytes at `next_in` are those that are compressed. -/
  begins : ∀ (nextIn : Str) (availIn : BitVec 32), availIn.toNat ≤ nextIn.length →
    Pending { zlib.deflateInit2.2 with nextIn, availIn } (gzip (nextIn.take availIn.toNat))
  /-- A call puts out as much of the stream as there is room for, and counts it.  It makes progress
  if it does not come to the end. -/
  deflates : ∀ (zs : ZStream σ) (output : Str) (availOut : BitVec 32), Pending zs output →
    availOut ≠ 0 → ∃ rest,
      output = (zlib.deflate zs availOut).written ++ rest ∧
      Pending (zlib.deflate zs availOut).zs rest ∧
      (zlib.deflate zs availOut).written.length ≤ availOut.toNat ∧
      (zlib.deflate zs availOut).zs.totalOut =
        zs.totalOut + BitVec.ofNat 64 (zlib.deflate zs availOut).written.length ∧
      ((zlib.deflate zs availOut).ret = Z_OK ∧ (zlib.deflate zs availOut).written ≠ [] ∨
        (zlib.deflate zs availOut).ret = Z_STREAM_END ∧ rest = [])
  /-- `deflateBound`: the length of the stream fits `total_out`. -/
  gzip_length : ∀ bytes : Str, bytes.length < 2 ^ 32 → (gzip bytes).length < 2 ^ 64
  /-- The bytes can be got back. -/
  gzip_injective : Function.Injective gzip

/-! ## Streams of stored bytes -/

namespace Stored

/-- The checksum of a gzip stream. -/
def crc32 (bytes : Str) : BitVec 32 :=
  let shift (crc : BitVec 32) := if crc.getLsbD 0 then crc >>> 1 ^^^ 0xedb88320 else crc >>> 1
  ~~~bytes.foldl (fun crc c => shift^[8] (crc ^^^ c.toBitVec.setWidth 32)) (~~~0)

def littleEndian (n : BitVec 32) : Str :=
  [0, 8, 16, 24].map fun i => UInt8.ofBitVec (n.extractLsb' i 8)

/-- Each byte is in a block of its own, which is not compressed.  The last block is empty. -/
def blocks (bytes : Str) : Str :=
  bytes.flatMap (fun c => [0x00, 0x01, 0x00, 0xfe, 0xff, c]) ++ [0x03, 0x00]

/-- The text `a` is in a compressed block, with the strategy that the compressor asks for. -/
def body (bytes : Str) : Str := if bytes = ascii "a" then [0x4b, 0x04, 0x00] else blocks bytes

/-- The gzip stream of some bytes. -/
def stream (bytes : Str) : Str :=
  [0x1f, 0x8b, 0x08, 0, 0, 0, 0, 0, 0, 0x03] ++ body bytes ++
    (littleEndian (crc32 bytes) ++ littleEndian (BitVec.ofNat 32 bytes.length))

example : stream (ascii "a") = [0x1f, 0x8b, 0x08, 0, 0, 0, 0, 0, 0, 0x03, 0x4b, 0x04, 0x00,
    0x43, 0xbe, 0xb7, 0xe8, 0x01, 0, 0, 0] := by decide +kernel

theorem blocks_cons (c : UInt8) (bytes : Str) :
    blocks (c :: bytes) = [0x00, 0x01, 0x00, 0xfe, 0xff, c] ++ blocks bytes := rfl

theorem blocks_injective : Function.Injective blocks := by
  intro bytes
  induction bytes with
  | nil =>
      intro bytes' h
      cases bytes' with
      | nil => rfl
      | cons c bytes' => cases (List.cons.inj h).1
  | cons c bytes ih =>
      intro bytes' h
      cases bytes' with
      | nil => cases (List.cons.inj h).1
      | cons c' bytes' =>
          rw [blocks_cons, blocks_cons] at h
          obtain ⟨hblock, hrest⟩ := List.append_inj h rfl
          have hc : c = c' := by simpa using hblock
          rw [hc, ih hrest]

/-- No stored block begins as the compressed one does. -/
theorem blocks_ne (bytes : Str) : blocks bytes ≠ [0x4b, 0x04, 0x00] := by
  intro h
  cases bytes with
  | nil => cases (List.cons.inj h).1
  | cons c bytes => cases (List.cons.inj h).1

theorem body_injective : Function.Injective body := by
  intro bytes bytes' h
  unfold body at h
  split_ifs at h with ha ha' ha'
  · rw [ha, ha']
  · exact absurd h.symm (blocks_ne bytes')
  · exact absurd h (blocks_ne bytes)
  · exact blocks_injective h

theorem stream_injective : Function.Injective stream := by
  intro bytes bytes' h
  have hbody := (List.append_inj' h rfl).1
  exact body_injective (List.append_cancel_left hbody)

theorem length_body_le (bytes : Str) : (body bytes).length ≤ 6 * bytes.length + 3 := by
  have hblocks : (blocks bytes).length = 6 * bytes.length + 2 := by
    induction bytes with
    | nil => rfl
    | cons c bytes ih =>
        have hblock : ([0x00, 0x01, 0x00, 0xfe, 0xff, c] : Str).length = 6 := rfl
        rw [blocks_cons, List.length_append, hblock, ih, List.length_cons]
        omega
  unfold body
  split_ifs
  · exact Nat.le_add_left 3 _
  · omega

theorem length_stream (bytes : Str) : (stream bytes).length = (body bytes).length + 18 := by
  simp [stream, littleEndian]

/-- What a stream has still to put out: all of it in front of the first call. -/
def pending (zs : ZStream (Option Str)) : Str :=
  zs.state.getD (stream (zs.nextIn.take zs.availIn.toNat))

/-- A library whose streams these are.  Its state is what is pending. -/
def zlib : Zlib (Option Str) where
  deflateInit2 := (Z_OK, ⟨[], 0, 0, [], none⟩)
  deflate zs availOut :=
    let written := (pending zs).take availOut.toNat
    let rest := (pending zs).drop availOut.toNat
    { ret := if rest = [] then Z_STREAM_END else Z_OK
      written
      zs :=
        { nextIn := zs.nextIn.drop zs.availIn.toNat
          availIn := 0
          totalOut := zs.totalOut + BitVec.ofNat 64 written.length
          msg := zs.msg
          state := some rest } }

theorem contract_zlib : zlib.Contract stream fun zs output => pending zs = output where
  init := rfl
  init_totalOut := rfl
  begins _ _ _ := rfl
  deflates := by
    rintro zs _ availOut rfl hroom
    refine ⟨(pending zs).drop availOut.toNat, (List.take_append_drop ..).symm, rfl,
      List.length_take_le .., rfl, ?_⟩
    by_cases hrest : (pending zs).drop availOut.toNat = []
    · exact Or.inr ⟨if_pos hrest, hrest⟩
    · refine Or.inl ⟨if_neg hrest, fun hwritten => ?_⟩
      have hpos : availOut.toNat ≠ 0 := fun h => hroom (BitVec.eq_of_toNat_eq h)
      have hnil : pending zs = [] := (List.take_eq_nil_iff.mp hwritten).resolve_left hpos
      exact hrest (by rw [hnil, List.drop_nil])
  gzip_length := by
    intro bytes hbytes
    have hbody := length_body_le bytes
    rw [length_stream]
    omega
  gzip_injective := stream_injective

end Stored

namespace GzipCompressor

variable {σ : Type} {zlib : Zlib σ} {gzip : Str → Str} {Pending : ZStream σ → Str → Prop}
  {output rest data : Str} {s : Variables σ}

/-! ## One turn -/

theorem take_write {outbuffer : Buffer} {written : Str} (h : written.length ≤ 32768) :
    (outbuffer.write written).1.take written.length = written := by
  rw [Buffer.write, List.take_take, Nat.min_eq_left h, List.take_left]

/-- Between two calls, `rest` of the stream `output` is missing. -/
structure Collected (Pending : ZStream σ → Str → Prop) (output : Str) (s : Variables σ)
    (rest : Str) : Prop where
  pending : Pending s.zs rest
  outstring_append : s.outstring ++ rest = output
  totalOut : s.zs.totalOut.toNat = s.outstring.length

/-- **A turn appends what the call has put out, and that once.**  Less is missing then, or nothing
and the loop is left. -/
theorem collected_turn (hzlib : zlib.Contract gzip Pending) (hlength : output.length < 2 ^ 64)
    (hs : Collected Pending output s rest) :
    ∃ rest', Collected Pending output (turn zlib s) rest' ∧
      ((turn zlib s).ret = Z_OK ∧ rest'.length < rest.length ∨
        (turn zlib s).ret = Z_STREAM_END ∧ rest' = []) := by
  obtain ⟨rest', hrest, hpending, hroom, htotal, hret⟩ :=
    hzlib.deflates s.zs rest 32768 hs.pending (by decide)
  unfold turn
  generalize zlib.deflate s.zs 32768 = result at hrest hpending hroom htotal hret
  have houtput : s.outstring ++ result.written ++ rest' = output := by
    rw [List.append_assoc, ← hrest, hs.outstring_append]
  have hcount : result.zs.totalOut.toNat = s.outstring.length + result.written.length := by
    have hfits := congrArg List.length houtput
    rw [List.length_append, List.length_append] at hfits
    rw [htotal, BitVec.toNat_add, BitVec.toNat_ofNat, hs.totalOut, Nat.add_mod_mod]
    exact Nat.mod_eq_of_lt (by omega)
  have happend : (if s.outstring.length < result.zs.totalOut.toNat then
      s.outstring ++ (s.outbuffer.write result.written).1.take
        (result.zs.totalOut.toNat - s.outstring.length)
      else s.outstring) = s.outstring ++ result.written := by
    rw [hcount, Nat.add_sub_cancel_left, take_write hroom]
    split_ifs with hwritten
    · rfl
    · rw [List.length_eq_zero_iff.mp (by omega : result.written.length = 0), List.append_nil]
  refine ⟨rest', ⟨hpending, ?_, ?_⟩, ?_⟩
  · dsimp only
    rw [happend, houtput]
  · dsimp only
    rw [happend, hcount, List.length_append]
  · refine hret.imp_left fun ⟨hok, hwritten⟩ => ⟨hok, ?_⟩
    have hpos := List.length_pos_iff.mpr hwritten
    rw [hrest, List.length_append]
    omega

/-! ## The whole loop -/

theorem Collected.length_add (h : Collected Pending output s rest) :
    s.outstring.length + rest.length = output.length := by
  rw [← List.length_append, h.outstring_append]

theorem isPending_eq_true : isPending s = true ↔ s.ret = Z_OK := decide_eq_true_iff

theorem isPending_eq_false : isPending s = false ↔ s.ret ≠ Z_OK := decide_eq_false_iff_not

/-- What holds behind a turn: the loop goes on, or nothing is missing. -/
def Kept (Pending : ZStream σ → Str → Prop) (output : Str) (s : Variables σ) : Prop :=
  ∃ rest, Collected Pending output s rest ∧ (s.ret = Z_OK ∨ s.ret = Z_STREAM_END ∧ rest = [])

/-- A bound on the turns that follow.  The last of them may have nothing to append. -/
def turnsLeft (output : Str) (s : Variables σ) : ℕ :=
  if isPending s then output.length - s.outstring.length + 1 else 0

theorem kept_turn (hzlib : zlib.Contract gzip Pending) (hlength : output.length < 2 ^ 64)
    (hs : Collected Pending output s rest) : Kept Pending output (turn zlib s) := by
  obtain ⟨rest', hcollected, hret⟩ := collected_turn hzlib hlength hs
  exact ⟨rest', hcollected, hret.imp_left And.left⟩

theorem turnsLeft_turn (hzlib : zlib.Contract gzip Pending) (hlength : output.length < 2 ^ 64)
    (hs : Collected Pending output s rest) (hpending : isPending s = true) :
    turnsLeft output (turn zlib s) < turnsLeft output s := by
  obtain ⟨rest', hcollected, hret⟩ := collected_turn hzlib hlength hs
  have hbefore := hs.length_add
  have hafter := hcollected.length_add
  rw [turnsLeft, turnsLeft, if_pos hpending]
  rcases hret with ⟨hok, hless⟩ | ⟨hend, -⟩
  · rw [if_pos (isPending_eq_true.mpr hok)]
    omega
  · have hstop : isPending (turn zlib s) = false :=
      isPending_eq_false.mpr (by rw [hend]; decide)
    rw [hstop, if_neg Bool.false_ne_true]
    omega

/-- **The loop ends with the whole stream**, however many rounds it takes. -/
theorem exists_runOnce (hzlib : zlib.Contract gzip Pending) (hlength : output.length < 2 ^ 64)
    (hs : Collected Pending output s rest) :
    ∃ turns s', Loop.runOnce isPending (turn zlib) turns s = some s' ∧
      s'.ret = Z_STREAM_END ∧ s'.outstring = output := by
  have hturn : ∀ s : Variables σ, Kept Pending output s → isPending s = true →
      Kept Pending output (turn zlib s) ∧
        turnsLeft output (turn zlib s) < turnsLeft output s := by
    intro s ⟨rest, hcollected, _⟩ hpending
    exact ⟨kept_turn hzlib hlength hcollected,
      turnsLeft_turn hzlib hlength hcollected hpending⟩
  obtain ⟨s', hrun, ⟨rest', hcollected, hret⟩, hstop⟩ := Loop.exists_run _ _ hturn
    (kept_turn hzlib hlength hs) (Nat.le_refl _)
  obtain ⟨hend, rfl⟩ := hret.resolve_left (isPending_eq_false.mp hstop)
  refine ⟨_, s', hrun, hend, ?_⟩
  rw [← hcollected.outstring_append, List.append_nil]

/-! ## What is compressed -/

theorem collected_start (hzlib : zlib.Contract gzip Pending) (outbuffer : Buffer) (data : Str) :
    Collected Pending (gzip (data.take (data.length % 2 ^ 32))) (start zlib outbuffer data)
      (gzip (data.take (data.length % 2 ^ 32))) where
  pending := by
    have hcount : (BitVec.ofNat 32 data.length).toNat = data.length % 2 ^ 32 :=
      BitVec.toNat_ofNat ..
    have hbegins := hzlib.begins data (BitVec.ofNat 32 data.length)
      (hcount ▸ Nat.mod_le _ _)
    rw [hcount] at hbegins
    exact hbegins
  outstring_append := List.nil_append _
  totalOut := congrArg BitVec.toNat hzlib.init_totalOut

/-- `compress` returns, with the stream of as many bytes as the 32 bits say. -/
theorem exists_compress (hzlib : zlib.Contract gzip Pending) (outbuffer : Buffer)
    (hdata : data ≠ []) :
    ∃ turns, compress zlib outbuffer data turns =
      some (.ok (gzip (data.take (data.length % 2 ^ 32)))) := by
  have htaken : (data.take (data.length % 2 ^ 32)).length < 2 ^ 32 := by
    rw [List.length_take]
    have hlt := Nat.mod_lt data.length (Nat.two_pow_pos 32)
    omega
  obtain ⟨turns, s', hrun, hend, hout⟩ := exists_runOnce hzlib
    (hzlib.gzip_length _ htaken) (collected_start hzlib outbuffer data)
  refine ⟨turns, ?_⟩
  rw [compress, if_neg (by simpa using hdata), if_neg (not_not.mpr hzlib.init), hrun,
    Option.map_some, finish, if_neg (not_not.mpr hend), hout]

/-- It has one outcome. -/
theorem compress_unique {outbuffer : Buffer} {turns turns' : ℕ}
    {outcome outcome' : Except Exception Str}
    (h : compress zlib outbuffer data turns = some outcome)
    (h' : compress zlib outbuffer data turns' = some outcome') : outcome = outcome' := by
  unfold compress at h h'
  split_ifs at h h'
  · exact Option.some_inj.mp (h.symm.trans h')
  · exact Option.some_inj.mp (h.symm.trans h')
  · obtain ⟨s, hs, rfl⟩ := Option.map_eq_some_iff.mp h
    obtain ⟨s', hs', rfl⟩ := Option.map_eq_some_iff.mp h'
    rw [Loop.run_unique hs hs']

/-- **When no byte is lost**: if and only if the number of bytes fits the 32 bits of `avail_in`. -/
theorem compress_eq_gzip_iff (hzlib : zlib.Contract gzip Pending) (outbuffer : Buffer)
    (hdata : data ≠ []) :
    (∃ turns, compress zlib outbuffer data turns = some (.ok (gzip data))) ↔
      data.length < 2 ^ 32 := by
  obtain ⟨turns, hcompress⟩ := exists_compress hzlib outbuffer hdata
  constructor
  · rintro ⟨turns', hwhole⟩
    have hgzip := Except.ok.inj (compress_unique hwhole hcompress)
    have hlength := congrArg List.length (hzlib.gzip_injective hgzip)
    have hlt := Nat.mod_lt data.length (Nat.two_pow_pos 32)
    rw [List.length_take] at hlength
    omega
  · intro hlt
    rw [Nat.mod_eq_of_lt hlt, List.take_length] at hcompress
    exact ⟨turns, hcompress⟩

/-- A buffer of zeros. -/
def zeros : Buffer := ⟨List.replicate 32768 0, List.length_replicate⟩

/-- One byte. -/
theorem compress_a : ∃ turns, compress Stored.zlib zeros (ascii "a") turns =
    some (.ok (Stored.stream (ascii "a"))) :=
  (compress_eq_gzip_iff Stored.contract_zlib zeros (by decide)).mpr (by decide)

/-- Of 4 GiB nothing is compressed. -/
theorem not_compress_four_gib :
    let data : Str := List.replicate (2 ^ 32) 97
    (∃ turns, compress Stored.zlib zeros data turns = some (.ok (Stored.stream []))) ∧
      ¬ ∃ turns, compress Stored.zlib zeros data turns = some (.ok (Stored.stream data)) := by
  intro data
  have hlength : data.length = 2 ^ 32 := List.length_replicate
  have hdata : data ≠ [] := fun h => by simp [h] at hlength
  obtain ⟨turns, hcompress⟩ := exists_compress Stored.contract_zlib zeros hdata
  rw [hlength, Nat.mod_self, List.take_zero] at hcompress
  refine ⟨⟨turns, hcompress⟩, ?_⟩
  rintro ⟨turns', hwhole⟩
  have hstream := Except.ok.inj (compress_unique hwhole hcompress)
  exact hdata (Stored.stream_injective hstream)

end GzipCompressor

end GinCpp.Utils
