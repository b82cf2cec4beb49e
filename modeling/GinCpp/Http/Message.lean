import GinCpp.Text
import Mathlib.Logic.Function.Basic

/-!
# Requests and responses

`http/header.h`, `http/request.h`, `http/response.h` and the members that the connection, the
router and the middlewares call.
-/

namespace GinCpp.Http

/-- `http::Header`. -/
structure Header where
  name : Str := []
  value : Str := []
  deriving DecidableEq, Repr

/-- What an `int` holds that `v` is computed into; the sums wrap at 2^32. -/
def asInt (v : Int) : Int := v.bmod 4294967296

@[simp] theorem asInt_asInt (v : Int) : asInt (asInt v) = asInt v := Int.bmod_bmod

/-- Wrapping early or late is the same. -/
theorem asInt_mul_add (v m d : Int) : asInt (asInt v * m + d) = asInt (v * m + d) := by
  unfold asInt
  calc (v.bmod 4294967296 * m + d).bmod 4294967296
      = ((v.bmod 4294967296 * m).bmod 4294967296 + d).bmod 4294967296 := Int.bmod_add_bmod.symm
    _ = ((v * m).bmod 4294967296 + d).bmod 4294967296 := by rw [Int.bmod_mul_bmod]
    _ = (v * m + d).bmod 4294967296 := Int.bmod_add_bmod

/-- `http::Request`.  The numbers of the version are kept as they are written; the `int` fields of
the source hold their `asInt`. -/
structure Request where
  method : Str := []
  uri : Str := []
  httpVersionMajor : Int
  httpVersionMinor : Int
  headers : List Header := []
  body : Str := []
  deriving DecidableEq, Repr

namespace Request

/-- A default-constructed `Request`: the strings and the header list are empty, the two version
fields have whatever value the memory held. -/
abbrev empty (major minor : Int) : Request :=
  { httpVersionMajor := major, httpVersionMinor := minor }

/-- The request with the version that the `int` fields hold. -/
def asInts (req : Request) : Request :=
  { req with
    httpVersionMajor := asInt req.httpVersionMajor
    httpVersionMinor := asInt req.httpVersionMinor }

def getMethod (req : Request) : Str := req.method

/-- The uri up to its first `?`. -/
def getPath (req : Request) : Str := req.uri.takeWhile (· != 63)

/-- The value of the first header with this very name, or the empty string. -/
def getHeader (req : Request) (name : Str) : Str :=
  match req.headers.find? (·.name == name) with
  | some header => header.value
  | none => []

/-- The loop of `get_query_params`: `key` is the last key read, `component` the text since the last
separator.  A component without `=` gets the key of the one before. -/
def queryLoop (key component : Str) (params : Str → Option Str) : Str → Str → Option Str
  | [] => Function.update params key (some component)
  | c :: query =>
      if c = '='.toUInt8 then queryLoop component [] params query
      else if c = '&'.toUInt8 then
        queryLoop key [] (Function.update params key (some component)) query
      else queryLoop key (component ++ [c]) params query

/-- The parameters after the first `?` of the uri. -/
def getQueryParams (req : Request) : Str → Option Str :=
  match req.uri.dropWhile (· != 63) with
  | [] => fun _ => none
  | _ :: query => queryLoop [] [] (fun _ => none) query

end Request

/-- `http::Response::StatusCode`. -/
inductive StatusCode
  | ok | created | accepted | noContent
  | multipleChoices | movedPermanently | movedTemporarily | notModified
  | badRequest | unauthorized | forbidden | notFound
  | internalServerError | notImplemented | badGateway | serviceUnavailable
  deriving DecidableEq, Repr

/-- The number behind a status code. -/
def StatusCode.code : StatusCode → ℕ
  | ok => 200 | created => 201 | accepted => 202 | noContent => 204
  | multipleChoices => 300 | movedPermanently => 301 | movedTemporarily => 302
  | notModified => 304
  | badRequest => 400 | unauthorized => 401 | forbidden => 403 | notFound => 404
  | internalServerError => 500 | notImplemented => 501 | badGateway => 502
  | serviceUnavailable => 503

/-- `http::Response`. -/
structure Response where
  status : StatusCode
  headers : List Header := []
  content : Str := []
  deriving DecidableEq, Repr

/-- `std::to_string` on a natural number. -/
def toString (n : ℕ) : Str := (Nat.toDigits 10 n).map Char.toUInt8

theorem toNat_of_isDigit {c : Char} (h : c.isDigit = true) :
    48 ≤ c.toNat ∧ c.toNat ≤ 57 ∧ c.toUInt8.toNat = c.toNat := by
  obtain ⟨hlow, hhigh⟩ : 48 ≤ c.toNat ∧ c.toNat ≤ 57 := by
    simpa [Char.isDigit, UInt32.le_iff_toNat_le] using h
  refine ⟨hlow, hhigh, ?_⟩
  calc c.toUInt8.toNat = c.toNat % 256 := UInt32.toNat_toUInt8 c.val
    _ = c.toNat := Nat.mod_eq_of_lt (by omega)

theorem isdigit_of_mem_toString {n : ℕ} {c : UInt8} (h : c ∈ toString n) : isdigit c = true := by
  obtain ⟨digit, hdigit, rfl⟩ := List.mem_map.mp h
  obtain ⟨hlow, hhigh, htoNat⟩ :=
    toNat_of_isDigit (Nat.isDigit_of_mem_toDigits (by decide) (by decide) hdigit)
  simp [isdigit, UInt8.le_iff_toNat_le, htoNat, hlow, hhigh]

theorem ne_of_isdigit {c d : UInt8} (hc : isdigit c = true) (hd : isdigit d = false) : c ≠ d := by
  rintro rfl
  simp [hc] at hd

/-- An `int` put into a stream. -/
def intToString (n : ℤ) : Str := (if n < 0 then ascii "-" else []) ++ toString n.natAbs

/-- `Response::stock_response`. -/
def Response.stockResponse (status : StatusCode) : Response :=
  let content : Str := []
  { status, content,
    headers := [⟨ascii "Content-Length", toString content.length⟩,
      ⟨ascii "Content-Type", ascii "text/html"⟩] }

@[simp] theorem Response.stockResponse_status (status : StatusCode) :
    (Response.stockResponse status).status = status := rfl

end GinCpp.Http
