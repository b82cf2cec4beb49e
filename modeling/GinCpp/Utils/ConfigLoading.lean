import GinCpp.Utils.Config
import GinCpp.Utils.Encoding

/-!
# Loading and validating

A load that throws has assigned what it had read (`load_interrupted`).  A port is narrowed to 16
bits before it is validated: the check catches the multiples of 65536 and no other port that is out
of range (`portChecked_iff`).
-/

namespace GinCpp.Utils

/-! ## A library that reads JSON -/

section

open Json

/-- The text that a byte string encodes. -/
def decode (text : Str) : Option (List Char) := text.toByteArray.utf8Decode?.map Array.toList

theorem decode_utf8 (chars : List Char) : decode (utf8 chars) = some chars := by
  have hdecode : (utf8 chars).toByteArray.utf8Decode? = some chars.toArray :=
    List.utf8Decode?_utf8Encode
  rw [decode, hdecode]
  rfl

/-- The reader of JSON texts in the place of the library. -/
def reader : Nlohmann Value where
  parse text :=
    match (decode text).bind read with
    | some value => .ok value
    | none => .error (.json (ascii "parse_error"))
  find
    | .object members, key =>
        .ok ((members.reverse.find? fun member => utf8 member.1 == key).map Prod.snd)
    | _, _ => .error (.json (ascii "type_error"))
  getUInt16
    | .number mantissa 0 => .ok (BitVec.ofInt 16 mantissa)
    | .bool b => .ok (if b then 1 else 0)
    | _ => .error (.json (ascii "type_error"))
  getString
    | .text chars => .ok (utf8 chars)
    | _ => .error (.json (ascii "type_error"))
  getUInt64
    | .number mantissa 0 => .ok (BitVec.ofInt 64 mantissa)
    | _ => .error (.json (ascii "type_error"))
  getInt64
    | .number mantissa 0 => .ok (BitVec.ofInt 64 mantissa)
    | _ => .error (.json (ascii "type_error"))
  getBool
    | .bool b => .ok b
    | _ => .error (.json (ascii "type_error"))
  integer p := .number p 0

end

/-! ## A load that throws -/

variable {Doc : Type} (nlohmann : Nlohmann Doc)

/-- **A load that throws.**  Where the file cannot be opened or is no JSON text, nothing has
changed.  Else the settings in front of the one that could not be read are assigned, and the others
are as they were. -/
theorem load_interrupted (files : Str → Option Str) (path : Str) (getenv : Str → Option Str)
    (config : ServerConfig) :
    (∀ e config', nlohmann.loadFromFile files path config = .error e config' →
      ((files path).map nlohmann.parse = none ∨ (files path).map nlohmann.parse = some (.error e)) ∧
          config' = config ∨
        ∃ doc, (files path).map nlohmann.parse = some (.ok doc) ∧
          Interrupted (nlohmann.fileReadings doc) e config config') ∧
      ∀ e config', loadFromEnv getenv config = .error e config' →
        Interrupted (envReadings getenv) e config config' := by
  refine ⟨fun e config' h => ?_, (run_assign (envReadings getenv) config).2⟩
  unfold Nlohmann.loadFromFile at h
  split at h
  · next hfile =>
    injection h with _ hconfig
    rw [hfile]
    exact Or.inl ⟨Or.inl rfl, hconfig.symm⟩
  · next content hfile =>
    rw [hfile, Option.map_some]
    split at h
    · next e' hparse =>
      injection h with he hconfig
      rw [hparse, he]
      exact Or.inl ⟨Or.inr rfl, hconfig.symm⟩
    · next doc hparse =>
      rw [hparse]
      exact Or.inr ⟨doc, rfl, (run_assign (nlohmann.fileReadings doc) config).2 e config' h⟩

/-- A port, and a number of connections that is none. -/
def manyConnections : Str → Option Str := fun name =>
  if name = ascii "SERVER_PORT" then some (ascii "9")
  else if name = ascii "SERVER_MAX_CONNECTIONS" then some (ascii "many")
  else none

theorem load_interrupted_many :
    Interrupted (envReadings manyConnections) (.invalidArgument (ascii "stoul")) {} { port := 9 } :=
  (load_interrupted reader (fun _ => none) [] manyConnections {}).2 _ _ rfl

/-- The port has changed. -/
theorem loadFromEnv_many :
    loadFromEnv manyConnections {} = .error (.invalidArgument (ascii "stoul")) { port := 9 } ∧
      ({ port := 9 } : ServerConfig).getPort ≠ ({} : ServerConfig).getPort :=
  ⟨rfl, by decide⟩

/-! ## Ports -/

/-- The port that a validated configuration gets is the one that was given. -/
def Checked (p : ℤ) (config : ServerConfig) : Prop :=
  config.validate = .ok () → (1 ≤ p ∧ p ≤ 65535) ∧ config.getPort = p

/-- Validation catches a bad port from a file, whatever else the file has. -/
def FilePortChecked (p : ℤ) : Prop :=
  ∀ files path doc config config', (files path).map nlohmann.parse = some (.ok doc) →
    nlohmann.find doc (ascii "port") = .ok (some (nlohmann.integer p)) →
    nlohmann.loadFromFile files path config = .ok () config' → Checked p config'

/-- Validation catches a bad port from the environment, whatever else is set there. -/
def EnvPortChecked (p : ℤ) : Prop :=
  ∀ getenv text config config', getenv (ascii "SERVER_PORT") = some text → stoi text = .ok p →
    loadFromEnv getenv config = .ok () config' → Checked p config'

/-- A port in range, or one that is narrowed to zero. -/
def Acceptable (p : ℤ) : Prop := (1 ≤ p ∧ p ≤ 65535) ∨ 65536 ∣ p

/-- A file that gives a port and nothing else. -/
def portFile (p : ℤ) : Str := ascii "\x7b\"port\": " ++ Http.intToString p ++ ascii "\x7d"

/-- The library reads an object whose only member is an integer, and narrows the integer by
reduction modulo `2 ^ 16`. -/
structure Nlohmann.ReadsPort (p : ℤ) : Prop where
  narrowed : nlohmann.getUInt16 (nlohmann.integer p) = .ok (BitVec.ofInt 16 p)
  object : ∃ doc, nlohmann.parse (portFile p) = .ok doc ∧
    nlohmann.find doc (ascii "port") = .ok (some (nlohmann.integer p)) ∧
    ∀ key ≠ ascii "port", nlohmann.find doc key = .ok none

theorem toNat_ofInt_port (p : ℤ) : ((BitVec.ofInt 16 p).toNat : ℤ) = p % 65536 := by
  rw [BitVec.toNat_ofInt]
  omega

/-- What is narrowed to a port other than zero passes the check. -/
theorem Acceptable.checked {p : ℤ} (h : Acceptable p) {config : ServerConfig}
    (hport : config.port = BitVec.ofInt 16 p) : Checked p config := by
  intro hvalid
  have hzero := (ServerConfig.validate_eq_ok.mp hvalid).1
  have hnarrowed := toNat_ofInt_port p
  rw [← hport] at hnarrowed
  rcases h with hrange | ⟨k, rfl⟩
  · refine ⟨hrange, ?_⟩
    rw [ServerConfig.getPort, hnarrowed]
    omega
  · omega

theorem acceptable_of_checked {p : ℤ} {config : ServerConfig}
    (hport : config.port = BitVec.ofInt 16 p) (hconnections : config.maxConnections ≠ 0)
    (hthreads : config.threadPoolSize ≠ 0) (h : Checked p config) : Acceptable p := by
  by_cases hdvd : 65536 ∣ p
  · exact Or.inr hdvd
  · have hnarrowed := toNat_ofInt_port p
    rw [← hport] at hnarrowed
    have hzero : config.port.toNat ≠ 0 := by omega
    exact Or.inl (h (ServerConfig.validate_eq_ok.mpr ⟨hzero, hconnections, hthreads⟩)).1

section

variable {readings : Readings} {config config' : ServerConfig} {p : ℤ}

theorem Loaded.port_eq (h : Loaded readings Setting.all config config') {v : BitVec 16}
    (hread : readings .port = .ok (some v)) : config'.port = v := by
  obtain ⟨w, hw, hget⟩ := h.assigned .port (by decide)
  rw [hread] at hw
  cases hw
  exact hget

theorem Loaded.get_eq (h : Loaded readings Setting.all config config') {s : Setting}
    (hread : readings s = .ok none) : config'.get s = config.get s := by
  by_cases hmem : s ∈ Setting.all
  · obtain ⟨w, hw, hget⟩ := h.assigned s hmem
    rw [hread] at hw
    cases hw
    exact hget
  · exact h.unchanged s hmem

/-- A load that finds a port and nothing else that matters. -/
theorem acceptable_of_loaded (hport : readings .port = .ok (some (BitVec.ofInt 16 p)))
    (hconnections : readings .maxConnections = .ok none)
    (hthreads : readings .threadPoolSize = .ok none)
    (hloaded : Loaded readings Setting.all {} config') (h : Checked p config') : Acceptable p := by
  have hmax : config'.maxConnections = 1024 := hloaded.get_eq hconnections
  have hsize : config'.threadPoolSize = 4 := hloaded.get_eq hthreads
  refine acceptable_of_checked (hloaded.port_eq hport) ?_ ?_ h
  · rw [hmax]
    decide
  · rw [hsize]
    decide

end

variable {nlohmann} {doc : Doc} {p : ℤ}

theorem loadFromFile_eq (files : Str → Option Str) (path : Str) (config : ServerConfig)
    (h : (files path).map nlohmann.parse = some (.ok doc)) :
    nlohmann.loadFromFile files path config =
      Stepwise.runAll (nlohmann.fileReadings doc).assign Setting.all config := by
  obtain ⟨content, hfile, hparse⟩ := Option.map_eq_some_iff.mp h
  unfold Nlohmann.loadFromFile
  rw [hfile]
  dsimp only
  rw [hparse]

theorem fileReadings_port (h : nlohmann.ReadsPort p)
    (hfind : nlohmann.find doc (ascii "port") = .ok (some (nlohmann.integer p))) :
    nlohmann.fileReadings doc .port = .ok (some (BitVec.ofInt 16 p)) := by
  show nlohmann.value doc (ascii "port") nlohmann.getUInt16 = _
  rw [Nlohmann.value, hfind]
  dsimp only
  rw [h.narrowed]
  rfl

theorem value_of_find {α : Type} {key : Str} (h : nlohmann.find doc key = .ok none)
    (get : Doc → Except Exception α) : nlohmann.value doc key get = .ok none := by
  rw [Nlohmann.value, h]

theorem filePortChecked_iff (h : nlohmann.ReadsPort p) :
    FilePortChecked nlohmann p ↔ Acceptable p := by
  constructor
  · intro hchecked
    obtain ⟨doc, hparse, hfind, hothers⟩ := h.object
    let files : Str → Option Str := fun _ => some (portFile p)
    have hfile : (files []).map nlohmann.parse = some (.ok doc) := congrArg some hparse
    have hall : ∀ s, ∃ v, nlohmann.fileReadings doc s = .ok v := by
      intro s
      cases s with
      | port => exact ⟨_, fileReadings_port h hfind⟩
      | bindAddress => exact ⟨_, value_of_find (hothers (ascii "bind_address") (by decide)) _⟩
      | maxConnections => exact ⟨_, value_of_find (hothers (ascii "max_connections") (by decide)) _⟩
      | connectionTimeout =>
          exact ⟨_, value_of_find (hothers (ascii "connection_timeout") (by decide)) _⟩
      | threadPoolSize =>
          exact ⟨_, value_of_find (hothers (ascii "thread_pool_size") (by decide)) _⟩
      | enableSsl => exact ⟨_, value_of_find (hothers (ascii "enable_ssl") (by decide)) _⟩
      | logLevel =>
          refine ⟨some .info, ?_⟩
          show (nlohmann.value doc (ascii "log_level") nlohmann.getString).map _ = _
          rw [value_of_find (hothers (ascii "log_level") (by decide))]
          rfl
    obtain ⟨config', hrun, hloaded⟩ := exists_loaded hall {}
    have hconfig := hchecked files [] doc {} config' hfile hfind
      ((loadFromFile_eq files [] {} hfile).trans hrun)
    exact acceptable_of_loaded (fileReadings_port h hfind) (value_of_find (hothers _ (by decide)) _)
      (value_of_find (hothers _ (by decide)) _) hloaded hconfig
  · intro hacceptable files path doc config config' hfile hfind hload
    rw [loadFromFile_eq files path config hfile] at hload
    have hloaded := (run_assign _ config).1 config' hload
    exact hacceptable.checked (hloaded.port_eq (fileReadings_port h hfind))

theorem envReadings_port {getenv : Str → Option Str} {text : Str}
    (hset : getenv (ascii "SERVER_PORT") = some text) (hstoi : stoi text = .ok p) :
    envReadings getenv .port = .ok (some (BitVec.ofInt 16 p)) := by
  show converted (getenv (ascii "SERVER_PORT")) _ = _
  rw [hset]
  show ((stoi text).map (BitVec.ofInt 16)).map some = _
  rw [hstoi]
  rfl

theorem envPortChecked_iff (h : -2 ^ 31 ≤ p ∧ p < 2 ^ 31) : EnvPortChecked p ↔ Acceptable p := by
  constructor
  · intro hchecked
    -- only the port is set
    let getenv : Str → Option Str := fun name =>
      if name = ascii "SERVER_PORT" then some (Http.intToString p) else none
    have hport : envReadings getenv .port = .ok (some (BitVec.ofInt 16 p)) :=
      envReadings_port rfl (stoi_intToString h)
    have hall : ∀ s, ∃ v, envReadings getenv s = .ok v := by
      intro s
      cases s with
      | port => exact ⟨_, hport⟩
      | _ => exact ⟨none, rfl⟩
    obtain ⟨config', hrun, hloaded⟩ := exists_loaded hall {}
    exact acceptable_of_loaded hport rfl rfl hloaded
      (hchecked getenv _ {} config' rfl (stoi_intToString h) hrun)
  · intro hacceptable getenv text config config' hset hstoi hload
    have hloaded := (run_assign _ config).1 config' hload
    exact hacceptable.checked (hloaded.port_eq (envReadings_port hset hstoi))

/-- **Which ports validation judges rightly**: those in range, and those that are narrowed to zero.
Every other port passes as one that was not given. -/
theorem portChecked_iff (h : nlohmann.ReadsPort p) :
    (FilePortChecked nlohmann p ↔ Acceptable p) ∧
      (-2 ^ 31 ≤ p ∧ p < 2 ^ 31 → (EnvPortChecked p ↔ Acceptable p)) :=
  ⟨filePortChecked_iff h, envPortChecked_iff⟩

/-- A file that gives a port is an object with one member. -/
theorem parse_portFile (p : ℤ) :
    reader.parse (portFile p) = .ok (.object [("port".toList, .number p 0)]) := by
  let port : Json.Field := .other "port".toList
    (Json.numeral (p < 0) (Nat.toDigits 10 p.natAbs) []) (some (.number p 0))
  have htext : portFile p = Json.utf8 (Json.objectText port []) := by
    have hopen : ascii "\x7b\"port\": " = Json.utf8 "\x7b\"port\": ".toList :=
      ascii_eq_utf8 (by decide)
    have hclose : ascii "\x7d" = Json.utf8 "\x7d".toList := ascii_eq_utf8 (by decide)
    rw [portFile, hopen, hclose, intToString_eq_utf8, ← Json.utf8_append, ← Json.utf8_append]
    refine congrArg Json.utf8 ?_
    simp [port, Json.objectText, Json.closing, Json.Field.written, Json.member]
  have hread : Json.read (Json.objectText port []) =
      some (.object [("port".toList, .number p 0)]) :=
    Json.read_of_faithful
      (List.forall_mem_singleton.mpr ⟨by decide, Json.reads_integer p⟩)
      (List.forall_mem_singleton.mpr rfl)
  show (match (decode (portFile p)).bind Json.read with
    | some value => Except.ok value
    | none => Except.error (Exception.json (ascii "parse_error"))) = _
  rw [htext, decode_utf8, Option.bind_some, hread]

theorem readsPort_reader (p : ℤ) : reader.ReadsPort p where
  narrowed := rfl
  object := by
    refine ⟨_, parse_portFile p, rfl, fun key hkey => ?_⟩
    have hother : (Json.utf8 "port".toList == key) = false := by
      rw [← ascii_eq_utf8 (by decide)]
      simpa using hkey.symm
    show Except.ok (([("port".toList, Json.Value.number p 0)].find?
      fun member => Json.utf8 member.1 == key).map Prod.snd) = _
    rw [List.find?_cons_of_neg (by simpa using hother)]
    rfl

theorem portChecked_iff_reader :
    (FilePortChecked reader 65537 ↔ Acceptable 65537) ∧
      (-2 ^ 31 ≤ (65537 : ℤ) ∧ (65537 : ℤ) < 2 ^ 31 → (EnvPortChecked 65537 ↔ Acceptable 65537)) :=
  portChecked_iff (readsPort_reader 65537)

/-- The port after the last one is taken for port 1. -/
theorem not_envPortChecked_wrapped : ¬ EnvPortChecked 65537 := by
  intro hchecked
  have hacceptable : Acceptable 65537 := (envPortChecked_iff (by omega)).mp hchecked
  rw [Acceptable] at hacceptable
  omega

end GinCpp.Utils
