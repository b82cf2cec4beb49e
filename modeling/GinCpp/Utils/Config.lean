import GinCpp.Http.Message
import GinCpp.Stepwise.Basic
import Mathlib.Algebra.Group.Int.Defs
import Mathlib.Algebra.Group.Nat.Defs
import Mathlib.Data.List.TakeWhile

/-!
# The server configuration

`utils/config.h` and `utils/config.cpp`.  The settings are read and assigned one after another;
`run_assign` says what a load has assigned, whether it returns or throws.
The JSON library is fetched by the build: `Nlohmann` is what the loader calls of it.
-/

namespace GinCpp.Utils

inductive LogLevel
  | debug | info | warn | error
  deriving DecidableEq, Repr

/-- `ServerConfig`, with the values of its constructor.  `size_t` and the count of
`std::chrono::seconds` have 64 bits. -/
structure ServerConfig where
  port : BitVec 16 := 8080
  bindAddress : Str := ascii "0.0.0.0"
  maxConnections : BitVec 64 := 1024
  connectionTimeout : BitVec 64 := 60
  threadPoolSize : BitVec 64 := 4
  enableSsl : Bool := false
  logLevel : LogLevel := .info
  deriving DecidableEq, Repr

inductive Exception
  | runtimeError (what : Str)
  | invalidArgument (what : Str)
  | outOfRange (what : Str)
  | json (what : Str)
  deriving DecidableEq, Repr

/-! ## Settings -/

inductive Setting
  | port | bindAddress | maxConnections | connectionTimeout | threadPoolSize | enableSsl | logLevel
  deriving DecidableEq, Repr

/-- The type of the field. -/
abbrev Setting.Value : Setting → Type
  | port => BitVec 16
  | bindAddress => Str
  | maxConnections => BitVec 64
  | connectionTimeout => BitVec 64
  | threadPoolSize => BitVec 64
  | enableSsl => Bool
  | logLevel => LogLevel

/-- The order in which both loaders read them. -/
def Setting.all : List Setting :=
  [port, bindAddress, maxConnections, connectionTimeout, threadPoolSize, enableSsl, logLevel]

namespace ServerConfig

def get (config : ServerConfig) : (s : Setting) → s.Value
  | .port => config.port
  | .bindAddress => config.bindAddress
  | .maxConnections => config.maxConnections
  | .connectionTimeout => config.connectionTimeout
  | .threadPoolSize => config.threadPoolSize
  | .enableSsl => config.enableSsl
  | .logLevel => config.logLevel

def set (config : ServerConfig) : (s : Setting) → s.Value → ServerConfig
  | .port, v => { config with port := v }
  | .bindAddress, v => { config with bindAddress := v }
  | .maxConnections, v => { config with maxConnections := v }
  | .connectionTimeout, v => { config with connectionTimeout := v }
  | .threadPoolSize, v => { config with threadPoolSize := v }
  | .enableSsl, v => { config with enableSsl := v }
  | .logLevel, v => { config with logLevel := v }

@[simp] theorem get_set (config : ServerConfig) (s : Setting) (v : s.Value) :
    (config.set s v).get s = v := by
  cases s <;> rfl

theorem get_set_of_ne {s t : Setting} (h : t ≠ s) (config : ServerConfig) (v : s.Value) :
    (config.set s v).get t = config.get t := by
  cases s <;> cases t <;> first | rfl | exact absurd rfl h

def getPort (config : ServerConfig) : ℕ := config.port.toNat

/-- `validate`. -/
def validate (config : ServerConfig) : Except Exception Unit :=
  if config.port.toNat = 0 ∨ config.port.toNat > 65535 then
    .error (.invalidArgument (ascii "Invalid port number"))
  else if config.maxConnections = 0 then
    .error (.invalidArgument (ascii "Max connections must be greater than 0"))
  else if config.threadPoolSize = 0 then
    .error (.invalidArgument (ascii "Thread pool size must be greater than 0"))
  else .ok ()

/-- No port of 16 bits is above 65535. -/
theorem validate_eq_ok {config : ServerConfig} :
    config.validate = .ok () ↔
      config.port.toNat ≠ 0 ∧ config.maxConnections ≠ 0 ∧ config.threadPoolSize ≠ 0 := by
  have hlt := config.port.isLt
  unfold validate
  split_ifs with hport hconnections hthreads
  · simp only [false_iff]
    omega
  · simp [hconnections]
  · simp [hthreads]
  · simp only [hconnections, hthreads, ne_eq, not_false_eq_true, and_self, and_true, true_iff]
    omega

end ServerConfig

/-- A string names a log level, anything else `INFO`. -/
def parseLogLevel (text : Str) : LogLevel :=
  if text = ascii "DEBUG" then .debug
  else if text = ascii "WARN" then .warn
  else if text = ascii "ERROR" then .error
  else .info

/-! ## Numbers in strings -/

def isspace (c : UInt8) : Bool := c == SP || (9 ≤ c && c ≤ 13)

/-- The integer at the beginning of a string, behind blanks: `std::strtol` without its limits. -/
def parseInteger (text : Str) : Option ℤ :=
  let text := text.dropWhile isspace
  let negative : Bool := text.head? == some '-'.toUInt8
  let unsigned := if negative || text.head? == some '+'.toUInt8 then text.tail else text
  let digits := unsigned.takeWhile isdigit
  if digits = [] then none
  else
    let magnitude : ℤ := Nat.ofDigitChars 10 (digits.map fun c => Char.ofNat c.toNat) 0
    some (if negative then -magnitude else magnitude)

/-- `std::stoi`. -/
def stoi (text : Str) : Except Exception ℤ :=
  match parseInteger text with
  | none => .error (.invalidArgument (ascii "stoi"))
  | some n => if -2 ^ 31 ≤ n ∧ n < 2 ^ 31 then .ok n else .error (.outOfRange (ascii "stoi"))

/-- `std::stoul`: a negative number is taken modulo `2 ^ 64`. -/
def stoul (text : Str) : Except Exception (BitVec 64) :=
  match parseInteger text with
  | none => .error (.invalidArgument (ascii "stoul"))
  | some n =>
      if n.natAbs < 2 ^ 64 then .ok (BitVec.ofInt 64 n) else .error (.outOfRange (ascii "stoul"))

example : stoi (ascii " -12a") = .ok (-12) := by decide +kernel

theorem map_toString (n : ℕ) :
    (Http.toString n).map (fun c => Char.ofNat c.toNat) = Nat.toDigits 10 n := by
  have hchar : ∀ c ∈ Nat.toDigits 10 n, Char.ofNat c.toUInt8.toNat = c := by
    intro c hc
    rw [(Http.toNat_of_isDigit (Nat.isDigit_of_mem_toDigits (by omega) (by omega) hc)).2.2,
      Char.ofNat_toNat]
  rw [Http.toString, List.map_map]
  exact (List.map_congr_left hchar).trans (List.map_id _)

theorem isspace_of_isdigit {c : UInt8} (h : isdigit c = true) : isspace c = false := by
  have hblank : c ≠ SP := Http.ne_of_isdigit h rfl
  simp only [isdigit, Bool.and_eq_true, decide_eq_true_eq, UInt8.le_iff_toNat_le] at h
  simp only [isspace, Bool.or_eq_false_iff, Bool.and_eq_false_iff, decide_eq_false_iff_not,
    UInt8.le_iff_toNat_le, beq_eq_false_iff_ne]
  have hlow : 48 ≤ c.toNat := h.1
  refine ⟨hblank, Or.inr fun hle => ?_⟩
  have hhigh : c.toNat ≤ 13 := hle
  omega

theorem parseInteger_digits (negative : Bool) (n : ℕ) :
    parseInteger ((if negative then ascii "-" else []) ++ Http.toString n) =
      some (if negative then -(n : ℤ) else n) := by
  have hdigit : ∀ c ∈ Http.toString n, isdigit c = true := fun c hc =>
    Http.isdigit_of_mem_toString hc
  have htake : (Http.toString n).takeWhile isdigit = Http.toString n :=
    List.takeWhile_eq_self_iff.mpr hdigit
  have hvalue : Nat.ofDigitChars 10 ((Http.toString n).map fun c => Char.ofNat c.toNat) 0 = n := by
    rw [map_toString, Nat.ofDigitChars_ten_toDigits]
  obtain ⟨d, digits, hcons⟩ : ∃ d digits, Http.toString n = d :: digits :=
    List.exists_cons_of_ne_nil (by simp [Http.toString, Nat.toDigits_ne_nil])
  have hne : Http.toString n ≠ [] := hcons ▸ List.cons_ne_nil d digits
  cases negative with
  | true =>
      have hspace : isspace '-'.toUInt8 = false := rfl
      have hsign : ascii "-" = ['-'.toUInt8] := rfl
      simp [parseInteger, hsign, hspace, htake, hne, hvalue]
  | false =>
      have hd : isdigit d = true := hdigit d (hcons ▸ List.mem_cons_self)
      have hdrop : (Http.toString n).dropWhile isspace = Http.toString n := by
        rw [hcons, List.dropWhile_cons_of_neg (by simp [isspace_of_isdigit hd])]
      have hminus : ((Http.toString n).head? == some '-'.toUInt8) = false := by
        simpa [hcons] using Http.ne_of_isdigit hd (d := '-'.toUInt8) rfl
      have hplus : ((Http.toString n).head? == some '+'.toUInt8) = false := by
        simpa [hcons] using Http.ne_of_isdigit hd (d := '+'.toUInt8) rfl
      simp [parseInteger, hdrop, hminus, hplus, htake, hne, hvalue]

/-- A number that was printed is read back. -/
theorem parseInteger_intToString (n : ℤ) : parseInteger (Http.intToString n) = some n := by
  have hdigits := parseInteger_digits (n < 0) n.natAbs
  simp only [decide_eq_true_eq] at hdigits
  rw [Http.intToString, hdigits, Option.some_inj]
  split_ifs
  · omega
  · omega

theorem stoi_intToString {n : ℤ} (h : -2 ^ 31 ≤ n ∧ n < 2 ^ 31) :
    stoi (Http.intToString n) = .ok n := by
  rw [stoi, parseInteger_intToString]
  exact if_pos h

/-! ## Loading -/

/-- What is read for each setting: a value, nothing, or an exception. -/
abbrev Readings : Type := (s : Setting) → Except Exception (Option s.Value)

/-- A setting that was read is assigned, if there is a value for it. -/
def Readings.assign (readings : Readings) (s : Setting) : EStateM Exception ServerConfig Unit :=
  fun config =>
    match readings s with
    | .error e => .error e config
    | .ok none => .ok () config
    | .ok (some v) => .ok () (config.set s v)

/-- A variable of the environment, converted if it is set. -/
def converted {α : Type} (text : Option Str) (convert : Str → Except Exception α) :
    Except Exception (Option α) :=
  match text with
  | none => .ok none
  | some text => (convert text).map some

def envReadings (getenv : Str → Option Str) : Readings
  | .port => converted (getenv (ascii "SERVER_PORT")) fun text => (stoi text).map (BitVec.ofInt 16)
  | .bindAddress => converted (getenv (ascii "SERVER_BIND_ADDRESS")) .ok
  | .maxConnections => converted (getenv (ascii "SERVER_MAX_CONNECTIONS")) stoul
  | .connectionTimeout => converted (getenv (ascii "SERVER_CONNECTION_TIMEOUT")) stoul
  | .threadPoolSize => converted (getenv (ascii "SERVER_THREAD_POOL_SIZE")) stoul
  | .enableSsl =>
      converted (getenv (ascii "SERVER_ENABLE_SSL")) fun text => .ok (text == ascii "true")
  | .logLevel => converted (getenv (ascii "SERVER_LOG_LEVEL")) fun text => .ok (parseLogLevel text)

/-- `load_from_env`. -/
def loadFromEnv (getenv : Str → Option Str) : EStateM Exception ServerConfig Unit :=
  Stepwise.runAll (envReadings getenv).assign Setting.all

/-- What the loader uses of `nlohmann::json`: reading a document, looking up a member (an exception
where the document is not an object), and the conversions of `value`. -/
structure Nlohmann (Doc : Type) where
  parse : Str → Except Exception Doc
  find : Doc → Str → Except Exception (Option Doc)
  getUInt16 : Doc → Except Exception (BitVec 16)
  getString : Doc → Except Exception Str
  getUInt64 : Doc → Except Exception (BitVec 64)
  getInt64 : Doc → Except Exception (BitVec 64)
  getBool : Doc → Except Exception Bool
  /-- The document of an integer literal. -/
  integer : ℤ → Doc

namespace Nlohmann

variable {Doc : Type} (nlohmann : Nlohmann Doc)

/-- `value(key, default)`, without the default. -/
def value {α : Type} (doc : Doc) (key : Str) (get : Doc → Except Exception α) :
    Except Exception (Option α) :=
  match nlohmann.find doc key with
  | .error e => .error e
  | .ok none => .ok none
  | .ok (some member) => (get member).map some

def fileReadings (doc : Doc) : Readings
  | .port => nlohmann.value doc (ascii "port") nlohmann.getUInt16
  | .bindAddress => nlohmann.value doc (ascii "bind_address") nlohmann.getString
  | .maxConnections => nlohmann.value doc (ascii "max_connections") nlohmann.getUInt64
  | .connectionTimeout => nlohmann.value doc (ascii "connection_timeout") nlohmann.getInt64
  | .threadPoolSize => nlohmann.value doc (ascii "thread_pool_size") nlohmann.getUInt64
  | .enableSsl => nlohmann.value doc (ascii "enable_ssl") nlohmann.getBool
  | .logLevel =>
      -- the default is a text, so that a level is always assigned
      (nlohmann.value doc (ascii "log_level") nlohmann.getString).map fun text =>
        some (parseLogLevel (text.getD (ascii "INFO")))

/-- `load_from_file`. -/
def loadFromFile (files : Str → Option Str) (path : Str) : EStateM Exception ServerConfig Unit :=
  fun config =>
    match files path with
    | none => .error (.runtimeError (ascii "Could not open config file: " ++ path)) config
    | some content =>
        match nlohmann.parse content with
        | .error e => .error e config
        | .ok doc => Stepwise.runAll (nlohmann.fileReadings doc).assign Setting.all config

end Nlohmann

/-! ## What a load has assigned -/

/-- The settings that were read have their values, the others are as they were. -/
structure Loaded (readings : Readings) (read : List Setting) (config config' : ServerConfig) :
    Prop where
  assigned : ∀ s ∈ read, ∃ v, readings s = .ok v ∧ config'.get s = v.getD (config.get s)
  unchanged : ∀ s ∉ read, config'.get s = config.get s

variable {readings : Readings} {config config' config'' : ServerConfig} {read : List Setting}
  {s : Setting} {e : Exception}

theorem loaded_nil (readings : Readings) (config : ServerConfig) :
    Loaded readings [] config config :=
  ⟨nofun, fun _ _ => rfl⟩

/-- One more setting. -/
theorem Loaded.concat (h : Loaded readings read config config')
    (hassign : readings.assign s config' = .ok () config'') :
    Loaded readings (read ++ [s]) config config'' := by
  -- the setting itself, and that nothing else is assigned
  obtain ⟨hself, hothers⟩ : (∃ v, readings s = .ok v ∧ config''.get s = v.getD (config.get s)) ∧
      ∀ t ≠ s, config''.get t = config'.get t := by
    unfold Readings.assign at hassign
    split at hassign
    · cases hassign
    · next hread =>
      injection hassign with _ hconfig
      subst hconfig
      refine ⟨?_, fun _ _ => rfl⟩
      by_cases hmem : s ∈ read
      · exact h.assigned s hmem
      · exact ⟨none, hread, h.unchanged s hmem⟩
    · next v hread =>
      injection hassign with _ hconfig
      subst hconfig
      exact ⟨⟨some v, hread, ServerConfig.get_set config' s v⟩,
        fun t ht => ServerConfig.get_set_of_ne ht config' v⟩
  constructor
  · intro t ht
    by_cases heq : t = s
    · subst heq
      exact hself
    · have hread : t ∈ read := by simpa [heq] using ht
      rw [hothers t heq]
      exact h.assigned t hread
  · intro t ht
    obtain ⟨hread, heq⟩ : t ∉ read ∧ t ≠ s := by simpa using ht
    rw [hothers t heq]
    exact h.unchanged t hread

/-- A setting that cannot be read leaves everything as it is. -/
theorem Readings.assign_error (h : readings.assign s config = .error e config') :
    readings s = .error e ∧ config' = config := by
  unfold assign at h
  split at h
  · next e' hread =>
    injection h with he hconfig
    exact ⟨he ▸ hread, hconfig.symm⟩
  · cases h
  · cases h

/-- A load threw at some setting: those before it were read, the others were not. -/
def Interrupted (readings : Readings) (e : Exception) (config config' : ServerConfig) : Prop :=
  ∃ read s unread, Setting.all = read ++ s :: unread ∧ readings s = .error e ∧
    Loaded readings read config config'

/-- **What the settings have become when the last one is read, or when one cannot be.** -/
theorem run_assign (readings : Readings) (config : ServerConfig) :
    (∀ config', Stepwise.runAll readings.assign Setting.all config = .ok () config' →
      Loaded readings Setting.all config config') ∧
    ∀ e config', Stepwise.runAll readings.assign Setting.all config = .error e config' →
      Interrupted readings e config config' := by
  obtain ⟨hok, herror⟩ := Stepwise.runAll_induction
    (P := fun read config' => Loaded readings read config config')
    (fun _ _ _ _ hloaded hassign => hloaded.concat hassign) (loaded_nil readings config) Setting.all
  refine ⟨hok, fun e config' h => ?_⟩
  obtain ⟨read, s, unread, stopped, hall, hloaded, hassign⟩ := herror e config' h
  obtain ⟨hread, rfl⟩ := Readings.assign_error hassign
  exact ⟨read, s, unread, hall, hread, hloaded⟩

/-- Where everything can be read, the load returns. -/
theorem exists_loaded (h : ∀ s, ∃ v, readings s = .ok v) (config : ServerConfig) :
    ∃ config', Stepwise.runAll readings.assign Setting.all config = .ok () config' ∧
      Loaded readings Setting.all config config' := by
  cases hrun : Stepwise.runAll readings.assign Setting.all config with
  | ok _ config' => exact ⟨config', rfl, (run_assign readings config).1 config' hrun⟩
  | error e config' =>
      obtain ⟨_, s, _, -, herror, -⟩ := (run_assign readings config).2 e config' hrun
      obtain ⟨v, hv⟩ := h s
      rw [hv] at herror
      cases herror

end GinCpp.Utils
