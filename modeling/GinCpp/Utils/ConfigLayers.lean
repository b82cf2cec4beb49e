import GinCpp.Assignment.Basic
import GinCpp.Utils.ConfigLoading

/-!
# Layers of configuration

A configuration is loaded from any number of files and environments, one over the other.  A load
gives the settings that it reads, up to the first that cannot be read; what it throws then may be
caught.  Each setting is the one that was given last, and else the one that was there
(`layers`).
-/

namespace GinCpp.Utils

open Assignment Separator

/-- What a load reads from: files and the environment at the time of it. -/
inductive Source
  | file (files : Str → Option Str) (path : Str)
  | environment (getenv : Str → Option Str)

/-- The value of a setting, if it and all in front of it can be read. -/
def Readings.given (readings : Readings) (s : Setting) : Option s.Value :=
  match readings s with
  | .error _ => none
  | .ok v => if ∀ t ∈ Setting.all.takeWhile (· != s), (readings t).isOk then v else none

namespace Source

variable {Doc : Type} (nlohmann : Nlohmann Doc)

def load : Source → EStateM Exception ServerConfig Unit
  | file files path => nlohmann.loadFromFile files path
  | environment getenv => loadFromEnv getenv

/-- What is read for the settings, if it comes to that. -/
def readings? : Source → Option Readings
  | file files path =>
      match (files path).map nlohmann.parse with
      | some (.ok doc) => some (nlohmann.fileReadings doc)
      | _ => none
  | environment getenv => some (envReadings getenv)

/-- The setting that a source gives. -/
def given (s : Setting) (source : Source) : Option s.Value :=
  (source.readings? nlohmann).bind (·.given s)

/-- The configuration after a load, whether it has returned or thrown. -/
def apply (config : ServerConfig) (source : Source) : ServerConfig :=
  match source.load nlohmann config with
  | .ok _ config => config
  | .error _ config => config

end Source

section

variable {readings : Readings} {config config' : ServerConfig} {s : Setting}

theorem Setting.mem_all (s : Setting) : s ∈ all := by
  cases s <;> decide

/-- A load that returns gives every setting that it reads. -/
theorem Loaded.given_eq (h : Loaded readings Setting.all config config') {v : Option s.Value}
    (hv : readings s = .ok v) : readings.given s = v := by
  have hall : ∀ t ∈ Setting.all.takeWhile (· != s), (readings t).isOk := by
    intro t _
    obtain ⟨w, hw, -⟩ := h.assigned t t.mem_all
    rw [hw]
    rfl
  rw [Readings.given, hv]
  exact if_pos hall

theorem Loaded.get_eq_given (h : Loaded readings Setting.all config config') :
    config'.get s = (readings.given s).getD (config.get s) := by
  obtain ⟨v, hv, hget⟩ := h.assigned s s.mem_all
  rw [hget, h.given_eq hv]

/-- One that throws gives those in front of the one that it cannot read. -/
theorem Interrupted.get_eq_given {e : Exception} (h : Interrupted readings e config config') :
    config'.get s = (readings.given s).getD (config.get s) := by
  obtain ⟨read, t, unread, hall, ht, hloaded⟩ := h
  rw [Readings.given]
  by_cases hs : s ∈ read
  · obtain ⟨before, after, rfl, hbefore⟩ := List.eq_append_cons_of_mem hs
    have hfront : Setting.all.takeWhile (· != s) = before := by
      rw [hall, List.append_assoc, List.cons_append, (takeWhile_append_cons hbefore _).1]
    have hread : ∀ u ∈ before, (readings u).isOk := by
      intro u hu
      obtain ⟨v, hv, -⟩ := hloaded.assigned u (List.mem_append_left _ hu)
      rw [hv]
      rfl
    obtain ⟨v, hv, hget⟩ := hloaded.assigned s hs
    rw [hv, hfront]
    dsimp only
    rw [if_pos hread, hget]
  · rw [hloaded.unchanged s hs]
    cases hv : readings s with
    | error e' => rfl
    | ok v =>
        -- the setting that cannot be read is in front
        have hne : t ≠ s := by
          rintro rfl
          rw [ht] at hv
          cases hv
        have hfront : ∀ u ∈ read ++ [t], (u != s) = true := by
          intro u hu
          rcases List.mem_append.mp hu with hu | hu
          · exact bne_iff_ne.mpr (ne_of_mem_of_not_mem hu hs)
          · exact bne_iff_ne.mpr (List.mem_singleton.mp hu ▸ hne)
        have hmem : t ∈ Setting.all.takeWhile (· != s) := by
          rw [hall, List.append_cons, List.takeWhile_append_of_pos hfront]
          simp
        have hnot : ¬ ∀ u ∈ Setting.all.takeWhile (· != s), (readings u).isOk := by
          intro hok
          have hisOk := hok t hmem
          rw [ht] at hisOk
          exact Bool.false_ne_true hisOk
        dsimp only
        rw [if_neg hnot, Option.getD_none]

/-- **What one load gives.** -/
theorem Source.get_apply {Doc : Type} (nlohmann : Nlohmann Doc) (config : ServerConfig)
    (source : Source) :
    (source.apply nlohmann config).get s = (source.given nlohmann s).getD (config.get s) := by
  have hrun : ∀ readings : Readings,
      (match Stepwise.runAll readings.assign Setting.all config with
        | .ok _ config => config
        | .error _ config => config).get s = (readings.given s).getD (config.get s) := by
    intro readings
    obtain ⟨hok, herror⟩ := run_assign readings config
    cases hresult : Stepwise.runAll readings.assign Setting.all config with
    | ok _ config' => exact (hok config' hresult).get_eq_given
    | error e config' => exact (herror e config' hresult).get_eq_given
  cases source with
  | environment getenv => exact hrun _
  | file files path =>
      rw [apply, given, load, readings?, Nlohmann.loadFromFile]
      cases files path with
      | none => rfl
      | some content =>
          dsimp only [Option.map_some]
          cases nlohmann.parse content with
          | error e => rfl
          | ok doc => exact hrun _

end

/-- The level of a file that does not name one is `INFO`. -/
theorem Source.isSome_given_logLevel {Doc : Type} {nlohmann : Nlohmann Doc}
    {files : Str → Option Str} {path : Str} {config config' : ServerConfig}
    (h : nlohmann.loadFromFile files path config = .ok () config') :
    ((Source.file files path).given nlohmann .logLevel).isSome := by
  rw [given, readings?]
  unfold Nlohmann.loadFromFile at h
  cases hfile : files path with
  | none =>
      rw [hfile] at h
      cases h
  | some content =>
      rw [hfile] at h
      dsimp only [Option.map_some] at h ⊢
      cases hparse : nlohmann.parse content with
      | error e =>
          rw [hparse] at h
          cases h
      | ok doc =>
          rw [hparse] at h
          have hloaded := (run_assign _ config).1 config' h
          obtain ⟨v, hv, -⟩ := hloaded.assigned .logLevel (Setting.mem_all _)
          rw [Option.bind_some, hloaded.given_eq hv]
          change (nlohmann.value doc (ascii "log_level") nlohmann.getString).map _ = _ at hv
          cases hvalue : nlohmann.value doc (ascii "log_level") nlohmann.getString with
          | error e =>
              rw [hvalue] at hv
              cases hv
          | ok text =>
              rw [hvalue] at hv
              cases hv
              rfl

/-- The configuration after some loads. -/
def loadAll {Doc : Type} (nlohmann : Nlohmann Doc) (config : ServerConfig)
    (sources : List Source) : ServerConfig :=
  sources.foldl (fun config source => source.apply nlohmann config) config

/-- The setting that was given last. -/
def lastGiven {Doc : Type} (nlohmann : Nlohmann Doc) (sources : List Source) (config : ServerConfig)
    (s : Setting) : s.Value :=
  (sources.filterMap (·.given nlohmann s)).getLast?.getD (config.get s)

/-- **Each setting is the one that was given last**, and these are validated.  A file that is read
to its end always gives a log level. -/
theorem layers {Doc : Type} (nlohmann : Nlohmann Doc) (sources : List Source)
    (config : ServerConfig) :
    (∀ s, (loadAll nlohmann config sources).get s = lastGiven nlohmann sources config s) ∧
      ((loadAll nlohmann config sources).validate = .ok () ↔
        (lastGiven nlohmann sources config .port).toNat ≠ 0 ∧
          lastGiven nlohmann sources config .maxConnections ≠ 0 ∧
          lastGiven nlohmann sources config .threadPoolSize ≠ 0) ∧
      ∀ files path config', nlohmann.loadFromFile files path config = .ok () config' →
        ((Source.file files path).given nlohmann .logLevel).isSome := by
  have hget : ∀ s, (loadAll nlohmann config sources).get s = lastGiven nlohmann sources config s :=
    fun s => @foldl_eq_getLast? _ _ _ _ (·.get s) _ (fun config source =>
      source.get_apply nlohmann config) config sources
  refine ⟨hget, ?_, fun files path config' hload => ?_⟩
  · rw [← hget, ← hget, ← hget]
    exact ServerConfig.validate_eq_ok
  · exact Source.isSome_given_logLevel hload

/-- A load that is interrupted behind the port, and a file that is not there. -/
example : loadAll reader {} [.environment manyConnections, .file (fun _ => none) []] =
    { port := 9 } := by decide +kernel

end GinCpp.Utils
