import GinCpp.Core.Connection
import GinCpp.Http.Version

/-!
# Versions that are too large

The connection tests the version that the parser has computed.  `versionExact_iff` says for which
bytes this is the version of the request, whatever the calls of `parse` are.
-/

namespace GinCpp.Core

open Http Scanner

/-- **Version arithmetic is exact**: every sum is an `int`, and if the last call returns `GOOD` the
`int` fields have the version that the text denotes, and the test of the connection accepts 1.0 and
1.1 only. -/
def VersionExact (major minor : Int) (calls : List Str) : Prop :=
  ∃ s verdict,
    runCalls Parser.step Overflows (({}, .empty major minor), none) calls = some (s, verdict) ∧
    (verdict = some .good → s.2.asInts = s.2 ∧
      ∃ c majorDigits minorDigits, taken message calls ++ [c] ∈ message ∧
      Denotes (taken message calls ++ [c]) s.2 majorDigits minorDigits ∧
      (compliant s.2 = true →
        decimal majorDigits = 1 ∧ (decimal minorDigits = 1 ∨ decimal minorDigits = 0)))

theorem version_of_compliant {req : Request} (h : compliant req = true) :
    asInt req.httpVersionMajor = 1 ∧
      (asInt req.httpVersionMinor = 1 ∨ asInt req.httpVersionMinor = 0) := by
  simp only [compliant, Bool.and_eq_true, Bool.or_eq_true, beq_iff_eq] at h
  exact h.1.1

/-- **When it is exact**: the digits of the requests, as far as they are read, make up numbers below
2³¹. -/
theorem versionExact_iff (major minor : Int) (calls : List Str) :
    VersionExact major minor calls ↔ Bounded (taken message calls) := by
  obtain ⟨s, hscan⟩ := residual_rest.exists_scan_taken ({}, .empty major minor) calls
  have hsome : (runCalls Parser.step Overflows (({}, .empty major minor), none) calls).isSome ↔
      Clear Parser.step Overflows ({}, .empty major minor)
        (taken (rest ({}, .empty major minor)) calls) :=
    runCalls_isSome_iff residual_rest exists_step_of_overflows
  rw [clear_iff hscan, rest_start] at hsome
  rw [rest_start] at hscan
  rw [← hsome]
  constructor
  · rintro ⟨s', verdict, hrun, -⟩
    rw [hrun]
    rfl
  · intro hrun
    have hbounded := hsome.mp hrun
    obtain ⟨⟨s', verdict⟩, hrun⟩ := Option.isSome_iff_exists.mp hrun
    refine ⟨s', verdict, hrun, ?_⟩
    rintro rfl
    obtain ⟨c, hstep⟩ := exists_of_runCalls_verdict hrun
    have hread := scan_taken residual_rest hrun
    rw [rest_start] at hread
    obtain ⟨hmem, majorDigits, minorDigits, hdenotes⟩ := denotes_of_good hread hstep
    have hints : s'.2.asInts = s'.2 := hdenotes.asInts_eq hbounded
    refine ⟨hints, c, majorDigits, minorDigits, hmem, hdenotes.concat rfl rfl c, ?_⟩
    intro hcompliant
    have hmajor : asInt s'.2.httpVersionMajor = s'.2.httpVersionMajor :=
      congrArg Request.httpVersionMajor hints
    have hminor : asInt s'.2.httpVersionMinor = s'.2.httpVersionMinor :=
      congrArg Request.httpVersionMinor hints
    have hversion := version_of_compliant hcompliant
    rw [hmajor, hminor, hdenotes.major_eq, hdenotes.minor_eq] at hversion
    exact_mod_cast hversion

/-- A request whose major version is 2³² + 1. -/
def largeVersion : Str := ascii "GET / HTTP/4294967297.1\x0d\nHost: a\x0d\n\x0d\n"

theorem not_versionExact_largeVersion : ¬ VersionExact 0 0 [largeVersion] := by
  rintro ⟨s, verdict, hrun, -⟩
  have hnone : runCalls Parser.step Overflows (({}, .empty 0 0), none) [largeVersion] = none := by
    decide +kernel
  rw [hnone] at hrun
  cases hrun

end GinCpp.Core
