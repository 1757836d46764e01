import HermitMiner.Config.Keys
import HermitMiner.Verify.Grammar

/-!
# What the configuration file says is what the miner gets

* `get_loadFields`: loading goes key by key.
* `json_load_iff`: when the value of a key becomes its field.
* `accepts_default`: every default passes the check of its own key.
* `settings_kept_iff`: the documents whose settings are all kept.
* `load_rendering`: a configuration read back from any document that renders it.
-/

namespace HermitMiner

open JsonParser JsonGrammar

/-! ## Key by key -/

section Keys

variable {document v : JsonValue} {cfg : MinerConfig} {k : Key} {field : Setting}

theorem get_loadFields (document : JsonValue) (cfg : MinerConfig) (k : Key) :
    k.get (loadFields document cfg) = k.load document (k.get cfg) := by
  cases k <;> rfl

/-- Every default passes the check of its own key. -/
theorem accepts_default (hardwareConcurrency : UInt32) (k : Key) :
    k.kind.Accepts (k.get (.default hardwareConcurrency)).json := by
  cases k with
  | threads =>
    have hlt := (max 1 hardwareConcurrency).toNat_lt
    have hthreads : 1 ≤ (max 1 hardwareConcurrency).toNat := by
      have hmax : max 1 hardwareConcurrency =
          if 1 ≤ hardwareConcurrency then hardwareConcurrency else 1 := rfl
      rw [hmax]
      split
      · exact UInt32.le_iff_toNat_le.1 ‹_›
      · exact le_rfl
    exact ⟨hthreads, Nat.le_of_lt_succ hlt⟩
  | _ => simp [Key.kind, Key.get, MinerConfig.default, Setting.json, Kind.Accepts, uint32Max]

theorem high_lt {low high : Nat} (h : k.kind = .number low high) : high < 2 ^ 32 := by
  cases k <;> simp [Key.kind, uint32Max] at h <;> omega

/-- A key the document does not speak of keeps its field. -/
theorem load_of_absent (h : k.present document = none) : k.load document field = field := by
  obtain ⟨hsection, hroot⟩ := Option.or_eq_none_iff.1 h
  unfold Key.load
  split
  all_goals simp [stringField, uintField, boolField, readStringField, readUintField, readBoolField,
    hsection, hroot]

/-- What a reader finds, when the key is in its section or at the root. -/
theorem read_of_present {α : Type} (read : Option JsonValue → Bytes → Option α)
    {f : JsonValue → Option α} (hread : ∀ obj key, read obj key = (objectField obj key).bind f)
    {a : α} (hv : f v = some a) (h : k.present document = some v) :
    (read (k.sectionOf document) k.name).or (read (some document) k.name) = some a := by
  rw [hread, hread]
  unfold Key.present at h
  cases hsection : objectField (k.sectionOf document) k.name with
  | none =>
    rw [hsection, Option.none_or] at h
    rw [h, Option.bind_none, Option.none_or, Option.bind_some, hv]
  | some w =>
    rw [hsection, Option.some_or] at h
    cases h
    rw [Option.bind_some, hv, Option.some_or]

/-- A key that the document speaks of gets its value, when the value has the type and the range of
the key, and otherwise not. -/
theorem json_load_iff (h : k.present document = some v) (hfield : k.kind.Accepts field.json) :
    (k.load document field).json = v ↔ k.kind.Accepts v := by
  unfold Key.load
  cases hkind : k.kind with
  | string =>
    rw [hkind] at hfield
    cases field with
    | string s =>
      cases v with
      | string t =>
        have hread := read_of_present readStringField (fun _ _ => rfl) rfl h
        simp [Setting.json, Kind.Accepts, stringField, hread]
      | _ => simp [Setting.json, Kind.Accepts]
    | _ => exact hfield.elim
  | bool =>
    rw [hkind] at hfield
    cases field with
    | bool b =>
      cases v with
      | bool c =>
        have hread := read_of_present readBoolField (fun _ _ => rfl) rfl h
        simp [Setting.json, Kind.Accepts, boolField, hread]
      | _ => simp [Setting.json, Kind.Accepts]
    | _ => exact hfield.elim
  | number low high =>
    have hhigh := high_lt hkind
    rw [hkind] at hfield
    cases field with
    | number n =>
      cases v with
      | number m =>
        have hread := read_of_present readUintField (fun _ _ => rfl) rfl h
        simp only [Setting.json, Kind.Accepts, uintField, hread, JsonValue.number.injEq]
        split
        · rename_i hrange
          have hlt : m < 2 ^ 32 := hrange.2.trans_lt hhigh
          exact iff_of_true (UInt32.toNat_ofNat_of_lt' hlt) hrange
        · rename_i hrange
          refine iff_of_false ?_ hrange
          rintro rfl
          exact hrange hfield
      | _ => simp [Setting.json, Kind.Accepts]
    | _ => exact hfield.elim

end Keys

/-! ## Texts of settings -/

section Texts

theorem body_append {text text' s s' : Bytes} (h : Body text s) (h' : Body text' s') :
    Body (text ++ text') (s ++ s') := by
  induction h with
  | nil => exact h'
  | plain hquote hslash _ ih => exact .plain hquote hslash ih
  | escape hesc _ ih => exact .escape hesc ih

/-- What `json_escape` writes denotes what it was given. -/
theorem body_jsonEscape (s : Bytes) : Body (jsonEscape s) s := by
  have hescape : ∀ esc c, (esc, c) ∈ escapes → Body [ch '\\', esc] [c] :=
    fun _ _ h => .escape h .nil
  have hbyte : ∀ c, Body (jsonEscapeByte c) [c] := by
    intro c
    unfold jsonEscapeByte
    repeat' split
    · subst c
      exact hescape (ch '\\') _ (by decide)
    · subst c
      exact hescape (ch '"') _ (by decide)
    · subst c
      exact hescape (ch 'n') _ (by decide)
    · subst c
      exact hescape (ch 'r') _ (by decide)
    · subst c
      exact hescape (ch 't') _ (by decide)
    · exact .plain ‹_› ‹_› .nil
  induction s with
  | nil => exact .nil
  | cons c s ih => exact body_append (hbyte c) ih

theorem jsonEscape_injective : Function.Injective jsonEscape := fun s s' h => by
  have hs : parseString (quoted (jsonEscape s)) 0 = (some s, 0 + (quoted (jsonEscape s)).length) :=
    parseString_complete (body_jsonEscape s) (List.append_nil _).symm
  have hs' : parseString (quoted (jsonEscape s)) 0 = (some s', 0 + (quoted (jsonEscape s)).length) :=
    parseString_complete (h ▸ body_jsonEscape s') (List.append_nil _).symm
  exact Option.some.inj (Prod.mk.inj (hs.symm.trans hs')).1

theorem value_text (s : Setting) : Value s.text s.json := by
  cases s with
  | string s => exact .string (body_jsonEscape s)
  | number n =>
    have hdec := Value.number (dec_ne_nil n.toNat) (fun _ => isDigit_of_mem_dec)
      (by rw [digitsValue_dec]; exact n.toNat_lt.trans (by decide))
    rw [digitsValue_dec] at hdec
    exact hdec
  | bool b =>
    cases b with
    | false => exact .false
    | true => exact .true

/-- A name without quotes and backslashes is written as it is. -/
theorem body_self {name : Bytes} (h : ∀ c ∈ name, c ≠ ch '"' ∧ c ≠ ch '\\') : Body name name := by
  induction name with
  | nil => exact .nil
  | cons c name ih =>
    obtain ⟨hquote, hslash⟩ := h c List.mem_cons_self
    exact .plain hquote hslash (ih fun d hd => h d (List.mem_cons_of_mem c hd))

theorem body_name (k : Key) : Body k.name k.name := by
  apply body_self
  cases k <;> decide +kernel

theorem body_sectionName (sec : Section) : Body sec.name sec.name := by
  apply body_self
  cases sec <;> decide +kernel

/-- A member written without white space. -/
theorem member_compact {key k text : Bytes} {v : JsonValue} (hkey : Body key k)
    (hvalue : Value text v) : Member (quoted key ++ ch ':' :: text) (k, v) := by
  simpa using Member.mk blank_nil hkey blank_nil blank_nil hvalue blank_nil

/-- The text of a member denotes its value. -/
def Denotes (m : Bytes × Bytes) (v : Bytes × JsonValue) : Prop := Body m.1 v.1 ∧ Value m.2 v.2

theorem members_of_membersText {text : Bytes} {members : List (Bytes × Bytes)}
    {values : List (Bytes × JsonValue)} (h : MembersText text members)
    (hvalues : List.Forall₂ Denotes members values) : Members text values := by
  induction h generalizing values with
  | last ha hb hc hd =>
    cases hvalues with
    | cons hv hnil =>
      cases hnil
      exact .last (.mk ha hv.1 hb hc hv.2 hd)
  | cons ha hb hc hd _ ih =>
    cases hvalues with
    | cons hv hrest => exact .cons (.mk ha hv.1 hb hc hv.2 hd) (ih hrest)

theorem value_of_objectText {text : Bytes} {members : List (Bytes × Bytes)}
    {values : List (Bytes × JsonValue)} (h : ObjectText text members)
    (hvalues : List.Forall₂ Denotes members values) : Value text (.object (objectOf values)) := by
  cases h with
  | empty ha =>
    cases hvalues
    exact .empty ha
  | members hmembers => exact .object (members_of_membersText hmembers hvalues)

end Texts

/-! ## Settings are kept -/

/-- A configuration that the miner runs with: the file was loaded and the result passed
`validate_config`. -/
structure Loaded (hardwareConcurrency : UInt32) (json : Bytes) (document : JsonValue)
    (cfg : MinerConfig) : Prop where
  parsed : (parse json).1 = some document
  loaded : loadConfig hardwareConcurrency json = (true, cfg)
  valid : validateConfig cfg = .ok ()

theorem Loaded.eq_loadFields {hardwareConcurrency : UInt32} {json : Bytes} {document : JsonValue}
    {cfg : MinerConfig} (h : Loaded hardwareConcurrency json document cfg) :
    cfg = loadFields document (.default hardwareConcurrency) := by
  have hloaded := h.loaded
  unfold loadConfig at hloaded
  rw [h.parsed] at hloaded
  split at hloaded
  · cases hloaded
  · split at hloaded
    · rename_i members hmembers
      cases hmembers
      exact (Prod.mk.inj hloaded).2.symm
    · cases hloaded

theorem loadConfig_of_document {json : Bytes} {members : JsonObject}
    (h : Document json (.object members)) (hardwareConcurrency : UInt32) :
    loadConfig hardwareConcurrency json =
      (true, loadFields (.object members) (.default hardwareConcurrency)) := by
  have hparse := parse_of_document h
  have hne : json ≠ [] := by
    rintro rfl
    cases hparse
  unfold loadConfig
  rw [hparse, if_neg hne]

theorem Loaded.of_document {hardwareConcurrency : UInt32} {json : Bytes} {members : JsonObject}
    (hdocument : Document json (.object members))
    (hvalid : validateConfig (loadFields (.object members) (.default hardwareConcurrency)) = .ok ()) :
    Loaded hardwareConcurrency json (.object members)
      (loadFields (.object members) (.default hardwareConcurrency)) :=
  ⟨parse_of_document hdocument, loadConfig_of_document hdocument hardwareConcurrency, hvalid⟩

/-- **Settings**: in every run with a configuration file, each key that the file has gets the value
the file gives it, exactly when each of them is given a value of its type and in its range. -/
theorem settings_kept_iff (hardwareConcurrency : UInt32) (json : Bytes) (document : JsonValue)
    (cfg : MinerConfig) (h : Loaded hardwareConcurrency json document cfg) :
    (∀ (k : Key) (v : JsonValue), k.present document = some v → (k.get cfg).json = v) ↔
      ∀ (k : Key) (v : JsonValue), k.present document = some v → k.kind.Accepts v := by
  have hiff : ∀ (k : Key) (v : JsonValue), k.present document = some v →
      ((k.get cfg).json = v ↔ k.kind.Accepts v) := by
    intro k v hv
    rw [h.eq_loadFields, get_loadFields]
    exact json_load_iff hv (accepts_default hardwareConcurrency k)
  constructor
  · intro hkept k v hv
    exact (hiff k v hv).1 (hkept k v hv)
  · intro haccepts k v hv
    exact (hiff k v hv).2 (haccepts k v hv)

/-- A document that sets the number of threads. -/
def threadsDocument : Bytes := str "\x7b\"hashing\":\x7b\"threads\":2\x7d\x7d"

/-- The value of `threadsDocument`. -/
def threadsValue : JsonValue := .object [(str "hashing", .object [(str "threads", .number 2)])]

theorem loaded_threadsDocument :
    Loaded 1 threadsDocument threadsValue (loadFields threadsValue (.default 1)) := by
  have hthreads : Value (str "2") (.number 2) := .number (by decide +kernel) (by decide +kernel) (by decide +kernel)
  have hsection := Value.object (.last (member_compact (body_name .threads) hthreads))
  have hroot := Value.object (.last (member_compact (body_sectionName .hashing) hsection))
  exact .of_document ⟨[], _, [], blank_nil, hroot, blank_nil, by decide +kernel⟩ (by decide +kernel)

theorem settings_kept_iff_threads :
    (Key.threads.get (loadFields threadsValue (.default 1))).json = .number 2 := by
  refine (settings_kept_iff 1 threadsDocument threadsValue _ loaded_threadsDocument).2 ?_
    .threads (.number 2) rfl
  intro k v hv
  have hnone : ∀ k ≠ Key.threads, k.present threadsValue = none := by
    intro k hk
    cases k <;> first | rfl | exact absurd rfl hk
  by_cases hk : k = Key.threads
  · subst hk
    have hvalue : Key.threads.present threadsValue = some (.number 2) := rfl
    rw [hvalue] at hv
    cases hv
    exact ⟨by decide, by decide⟩
  · rw [hnone k hk] at hv
    cases hv

/-- A document that asks for TLS with a string. -/
def tlsDocument : Bytes :=
  str "\x7b\"payout_address\":\"a\",\"pool\":\x7b\"enabled\":true,\"require_tls\":\"true\"\x7d\x7d"

/-- The value of `tlsDocument`. -/
def tlsValue : JsonValue :=
  .object [(str "pool", .object [(str "require_tls", .string (str "true")),
    (str "enabled", .bool true)]), (str "payout_address", .string (str "a"))]

theorem loaded_tlsDocument :
    Loaded 1 tlsDocument tlsValue (loadFields tlsValue (.default 1)) := by
  have htls : Value (quoted (str "true")) (.string (str "true")) := .string (body_self (by decide +kernel))
  have haddress : Value (quoted (str "a")) (.string (str "a")) := .string (body_self (by decide +kernel))
  have hsection := Value.object (.cons (member_compact (body_name .enabled) .true)
    (.last (member_compact (body_name .requireTls) htls)))
  have hroot := Value.object (.cons (member_compact (body_name .payoutAddress) haddress)
    (.last (member_compact (body_sectionName .pool) hsection)))
  exact .of_document ⟨[], _, [], blank_nil, hroot, blank_nil, by decide +kernel⟩ (by decide +kernel)

/-- The miner runs with TLS off, and nothing fails. -/
theorem require_tls_ignored :
    ¬∀ hardwareConcurrency json document cfg, Loaded hardwareConcurrency json document cfg →
      ∀ (k : Key) (v : JsonValue), k.present document = some v → (k.get cfg).json = v := by
  intro h
  have htls := h 1 tlsDocument tlsValue _ loaded_tlsDocument .requireTls (.string (str "true")) rfl
  cases htls

/-! ## Objects without repeated keys -/

section Lookup

variable {members values : List (Bytes × JsonValue)} {key : Bytes} {v : JsonValue}

theorem lookup_of_mem (hnodup : (members.map Prod.fst).Nodup) (h : (key, v) ∈ members) :
    members.lookup key = some v := by
  induction members with
  | nil => cases h
  | cons m members ih =>
    rw [List.map_cons, List.nodup_cons] at hnodup
    rw [List.lookup_cons]
    rcases List.mem_cons.1 h with rfl | h
    · rw [beq_self_eq_true]
    · have hne : key ≠ m.1 := by
        rintro rfl
        exact hnodup.1 (List.mem_map.2 ⟨_, h, rfl⟩)
      rw [beq_false_of_ne hne]
      exact ih hnodup.2 h

theorem lookup_of_not_mem (h : key ∉ members.map Prod.fst) : members.lookup key = none := by
  induction members with
  | nil => rfl
  | cons m members ih =>
    rw [List.map_cons, List.mem_cons, not_or] at h
    rw [List.lookup_cons, beq_false_of_ne h.1]
    exact ih h.2

/-- An object with the members `values`, in any order, has each of them. -/
theorem objectField_of_mem (hperm : members.Perm values) (hnodup : (values.map Prod.fst).Nodup)
    (h : (key, v) ∈ values) :
    objectField (some (.object (objectOf members))) key = some v := by
  have hreverse : members.reverse.Perm values := (List.reverse_perm members).trans hperm
  show (objectOf members).lookup key = some v
  rw [lookup_objectOf]
  exact lookup_of_mem ((hreverse.map Prod.fst).nodup_iff.2 hnodup) (hreverse.mem_iff.2 h)

theorem objectField_of_not_mem (hperm : members.Perm values) (h : key ∉ values.map Prod.fst) :
    objectField (some (.object (objectOf members))) key = none := by
  have hreverse : members.reverse.Perm values := (List.reverse_perm members).trans hperm
  show (objectOf members).lookup key = none
  rw [lookup_objectOf]
  exact lookup_of_not_mem fun hmem => h ((hreverse.map Prod.fst).mem_iff.1 hmem)

end Lookup

/-! ## Documents that render an assignment -/

section Rendering

variable {σ : Assignment} {input : Bytes} {p : Key → Bool}

/-- The values of the members that `p` holds of. -/
def Assignment.values (σ : Assignment) (p : Key → Bool) : List (Bytes × JsonValue) :=
  (Key.all.filter p).filterMap fun k => (σ.value k).map fun s => (k.name, s.json)

theorem mem_values {k : Key} {s : Setting} (hk : p k = true) (hs : σ.value k = some s) :
    (k.name, s.json) ∈ σ.values p :=
  List.mem_filterMap.2 ⟨k, List.mem_filter.2 ⟨k.mem_all, hk⟩, by rw [hs]; rfl⟩

theorem mem_names {name : Bytes} (h : name ∈ (σ.values p).map Prod.fst) :
    ∃ k, name = k.name ∧ p k = true ∧ (σ.value k).isSome := by
  obtain ⟨m, hm, rfl⟩ := List.mem_map.1 h
  obtain ⟨k, hk, hvalue⟩ := List.mem_filterMap.1 hm
  obtain ⟨s, hs, rfl⟩ := Option.map_eq_some_iff.1 hvalue
  exact ⟨k, rfl, (List.mem_filter.1 hk).2, by rw [hs]; rfl⟩

theorem name_injective : Function.Injective Key.name := by
  have hnodup : (Key.all.map Key.name).Nodup := by decide +kernel
  intro k k' h
  exact List.inj_on_of_nodup_map hnodup k.mem_all k'.mem_all h

theorem name_ne_sectionName (k : Key) (sec : Section) : k.name ≠ sec.name := by
  cases k <;> cases sec <;> decide

theorem sectionName_injective : Function.Injective Section.name := by
  intro sec sec' h
  cases sec <;> cases sec' <;> first | rfl | (revert h; decide)

theorem nodup_names (σ : Assignment) (p : Key → Bool) : ((σ.values p).map Prod.fst).Nodup := by
  have hall : Key.all.Nodup := by decide
  rw [Assignment.values, List.map_filterMap]
  refine List.Nodup.filterMap ?_ (hall.filter p)
  intro k k' name hk hk'
  simp only [Option.map_map, Option.mem_def, Option.map_eq_some_iff, Function.comp_apply] at hk hk'
  obtain ⟨-, -, hname⟩ := hk
  obtain ⟨-, -, hname'⟩ := hk'
  exact name_injective (hname.trans hname'.symm)

theorem forall₂_members (σ : Assignment) (p : Key → Bool) :
    List.Forall₂ Denotes (σ.members p) (σ.values p) := by
  unfold Assignment.members Assignment.values
  generalize Key.all.filter p = keys
  induction keys with
  | nil => exact .nil
  | cons k keys ih =>
    cases hs : σ.value k with
    | none =>
      rw [List.filterMap_cons_none (by rw [hs]; rfl), List.filterMap_cons_none (by rw [hs]; rfl)]
      exact ih
    | some s =>
      rw [List.filterMap_cons_some (by rw [hs]; rfl), List.filterMap_cons_some (by rw [hs]; rfl)]
      exact .cons ⟨body_name k, value_text s⟩ ih

/-- The members of an object, in the order of its text. -/
theorem exists_values {text : Bytes} {members canonical : List (Bytes × Bytes)}
    {values : List (Bytes × JsonValue)} (htext : ObjectText text members)
    (hperm : members.Perm canonical) (hvalues : List.Forall₂ Denotes canonical values) :
    ∃ values', values'.Perm values ∧ Value text (.object (objectOf values')) := by
  obtain ⟨values', hdenotes, hperm'⟩ := List.perm_comp_forall₂ hperm hvalues
  exact ⟨values', hperm', value_of_objectText htext hdenotes⟩

namespace Rendering

variable (r : Rendering σ input)

/-- What stands in a section, and what stands at the root. -/
def nested (sec : Section) (k : Key) : Bool := k.home = some sec ∧ r.flat k = false

def atRoot (k : Key) : Bool := k.home = none ∨ r.flat k = true

/-- The object of a section, up to the order of its members. -/
theorem exists_section {sec : Section} (hsec : sec ∈ r.sections) :
    ∃ members, members.Perm (σ.values (r.nested sec)) ∧
      Value (r.sectionText sec) (.object (objectOf members)) :=
  exists_values (r.objectText_section sec hsec) (r.sectionMembers_perm sec hsec)
    (forall₂_members σ (r.nested sec))

/-- What the document says: the sections with their objects, and the root. -/
theorem exists_document :
    ∃ (object : Section → JsonObject) (members : List (Bytes × JsonValue)),
      (∀ sec ∈ r.sections, ∃ values, values.Perm (σ.values (r.nested sec)) ∧
        object sec = objectOf values) ∧
      members.Perm (σ.values r.atRoot ++
        r.sections.map fun sec => (sec.name, JsonValue.object (object sec))) ∧
      Document input (.object (objectOf members)) := by
  have hsections : ∀ sec, ∃ object : JsonObject, sec ∈ r.sections →
      Value (r.sectionText sec) (.object object) ∧
        ∃ values, values.Perm (σ.values (r.nested sec)) ∧ object = objectOf values := by
    intro sec
    by_cases hsec : sec ∈ r.sections
    · obtain ⟨values, hperm, hvalue⟩ := r.exists_section hsec
      exact ⟨objectOf values, fun _ => ⟨hvalue, values, hperm, rfl⟩⟩
    · exact ⟨[], fun h => absurd h hsec⟩
  choose object hobject using hsections
  have hdenotes : ∀ secs : List Section, (∀ sec ∈ secs, sec ∈ r.sections) →
      List.Forall₂ Denotes (secs.map fun sec => (sec.name, r.sectionText sec))
        (secs.map fun sec => (sec.name, JsonValue.object (object sec))) := by
    intro secs
    induction secs with
    | nil => exact fun _ => .nil
    | cons sec secs ih =>
      intro hsecs
      exact .cons ⟨body_sectionName sec, (hobject sec (hsecs sec List.mem_cons_self)).1⟩
        (ih fun sec' h => hsecs sec' (List.mem_cons_of_mem sec h))
  obtain ⟨members, hperm, hvalue⟩ := exists_values r.objectText_root r.rootMembers_perm
    (List.rel_append (forall₂_members σ r.atRoot) (hdenotes r.sections fun _ h => h))
  refine ⟨object, members, fun sec hsec => (hobject sec hsec).2, hperm, ?_⟩
  exact ⟨r.before, r.rootText, r.after, r.blank_before, hvalue, r.blank_after, r.input_eq⟩

section Present

variable {object : Section → JsonObject} {members : List (Bytes × JsonValue)}

/-- The members of the root. -/
def rootValues (object : Section → JsonObject) : List (Bytes × JsonValue) :=
  σ.values r.atRoot ++ r.sections.map fun sec => (sec.name, JsonValue.object (object sec))

theorem nodup_rootValues : ((r.rootValues object).map Prod.fst).Nodup := by
  have hsections : ((r.sections.map fun sec => (sec.name, JsonValue.object (object sec))).map
      Prod.fst) = r.sections.map Section.name := by
    rw [List.map_map]
    rfl
  rw [rootValues, List.map_append, hsections, List.nodup_append]
  refine ⟨nodup_names σ r.atRoot, r.sections_nodup.map sectionName_injective, ?_⟩
  intro name hname name' hname' heq
  obtain ⟨k, rfl, -⟩ := mem_names hname
  obtain ⟨sec, -, rfl⟩ := List.mem_map.1 hname'
  exact name_ne_sectionName k sec heq

theorem not_mem_rootValues {k : Key} (h : r.atRoot k = false ∨ σ.value k = none) :
    k.name ∉ (r.rootValues object).map Prod.fst := by
  intro hmem
  rw [rootValues, List.map_append, List.mem_append] at hmem
  rcases hmem with hmem | hmem
  · obtain ⟨k', hname, hroot, hvalue⟩ := mem_names hmem
    obtain rfl := name_injective hname
    rcases h with h | h
    · rw [h] at hroot
      cases hroot
    · rw [h] at hvalue
      cases hvalue
  · obtain ⟨m, hm, hname⟩ := List.mem_map.1 hmem
    obtain ⟨sec, -, rfl⟩ := List.mem_map.1 hm
    exact name_ne_sectionName k sec hname.symm

variable (hobject : ∀ sec ∈ r.sections, ∃ values, values.Perm (σ.values (r.nested sec)) ∧
    object sec = objectOf values)
  (hmembers : members.Perm (r.rootValues object))
include hobject hmembers

/-- A key that does not stand in its section is not found there. -/
theorem sectionOf_of_not_nested {k : Key}
    (h : ∀ sec, k.home = some sec → r.nested sec k = false ∨ σ.value k = none) :
    objectField (k.sectionOf (.object (objectOf members))) k.name = none := by
  unfold Key.sectionOf
  cases hhome : k.home with
  | none => rfl
  | some sec =>
    rw [Option.bind_some]
    by_cases hsec : sec ∈ r.sections
    · obtain ⟨values, hperm, hvalues⟩ := hobject sec hsec
      have hmem : (sec.name, JsonValue.object (object sec)) ∈ r.rootValues object :=
        List.mem_append_right _ (List.mem_map.2 ⟨sec, hsec, rfl⟩)
      rw [objectField_of_mem hmembers r.nodup_rootValues hmem, hvalues]
      refine objectField_of_not_mem hperm fun hname => ?_
      obtain ⟨k', heq, hnested, hvalue⟩ := mem_names hname
      obtain rfl := name_injective heq
      rcases h sec hhome with h | h
      · rw [h] at hnested
        cases hnested
      · rw [h] at hvalue
        cases hvalue
    · have hnot : sec.name ∉ (r.rootValues object).map Prod.fst := by
        intro hmem
        rw [rootValues, List.map_append, List.mem_append] at hmem
        rcases hmem with hmem | hmem
        · obtain ⟨k', hname, -⟩ := mem_names hmem
          exact name_ne_sectionName k' sec hname.symm
        · obtain ⟨m, hm, hname⟩ := List.mem_map.1 hmem
          obtain ⟨sec', hsec', rfl⟩ := List.mem_map.1 hm
          exact hsec (sectionName_injective hname ▸ hsec')
      rw [objectField_of_not_mem hmembers hnot]
      rfl

/-- The document says of every key what the assignment says. -/
theorem present_eq (k : Key) :
    k.present (.object (objectOf members)) = (σ.value k).map Setting.json := by
  unfold Key.present
  cases hs : σ.value k with
  | none =>
    rw [r.sectionOf_of_not_nested hobject hmembers fun _ _ => Or.inr hs,
      objectField_of_not_mem hmembers (r.not_mem_rootValues (Or.inr hs))]
    rfl
  | some s =>
    cases hroot : r.atRoot k with
    | true =>
      have hnested : ∀ sec, k.home = some sec → r.nested sec k = false ∨ σ.value k = none := by
        intro sec hhome
        left
        simp only [atRoot, hhome, reduceCtorEq, false_or, decide_eq_true_eq] at hroot
        simp [nested, hroot]
      rw [r.sectionOf_of_not_nested hobject hmembers hnested, Option.none_or]
      exact objectField_of_mem hmembers r.nodup_rootValues
        (List.mem_append_left _ (mem_values hroot hs))
    | false =>
      simp only [atRoot, decide_eq_false_iff_not, not_or] at hroot
      obtain ⟨sec, hhome⟩ := Option.ne_none_iff_exists'.1 hroot.1
      have hflat : r.flat k = false := Bool.eq_false_of_not_eq_true hroot.2
      have hsec := r.sections_of_nested k sec (by rw [hs]; rfl) hflat hhome
      obtain ⟨values, hperm, hvalues⟩ := hobject sec hsec
      have hmem : (sec.name, JsonValue.object (object sec)) ∈ r.rootValues object :=
        List.mem_append_right _ (List.mem_map.2 ⟨sec, hsec, rfl⟩)
      have hfound : objectField (k.sectionOf (.object (objectOf members))) k.name = some s.json := by
        rw [Key.sectionOf, hhome, Option.bind_some,
          objectField_of_mem hmembers r.nodup_rootValues hmem, hvalues]
        exact objectField_of_mem hperm (nodup_names σ _)
          (mem_values (by simp [nested, hhome, hflat]) hs)
      rw [hfound]
      rfl

end Present

end Rendering

end Rendering

theorem Setting.json_injective : Function.Injective Setting.json := by
  intro s s' h
  cases s with
  | string s => cases s' <;> simp_all [Setting.json]
  | number n => cases s' <;> simp_all [Setting.json, UInt32.toNat_inj]
  | bool b => cases s' <;> simp_all [Setting.json]

/-- **Round trip**: a document that renders an assignment, nested or flat, in any order and with any
white space, is loaded, and every field of the configuration is what was assigned to its key, or its
default. -/
theorem load_rendering (hardwareConcurrency : UInt32) (σ : Assignment) (input : Bytes)
    (r : Rendering σ input) :
    (loadConfig hardwareConcurrency input).1 = true ∧
      ∀ k : Key, k.get (loadConfig hardwareConcurrency input).2 =
        (σ.value k).getD (k.get (.default hardwareConcurrency)) := by
  obtain ⟨object, members, hobject, hmembers, hdocument⟩ := r.exists_document
  rw [loadConfig_of_document hdocument]
  refine ⟨rfl, ?_⟩
  intro k
  have hpresent := r.present_eq hobject hmembers k
  rw [get_loadFields]
  cases hs : σ.value k with
  | none =>
    rw [hs] at hpresent
    rw [load_of_absent hpresent, Option.getD_none]
  | some s =>
    rw [hs] at hpresent
    have hjson := (json_load_iff hpresent (accepts_default hardwareConcurrency k)).2
      (σ.accepted k s hs)
    rw [Option.getD_some]
    exact Setting.json_injective hjson

/-- A node, a pool and two threads. -/
def mixedAssignment : Assignment where
  value
    | .nodeId => some (.string (str "a\"b"))
    | .host => some (.string (str "h"))
    | .requireTls => some (.bool false)
    | .threads => some (.number 2)
    | _ => none
  accepted k s h := by
    cases k <;> cases h
    · trivial
    · trivial
    · trivial
    · exact ⟨by decide, by decide⟩

def mixedPool : Bytes := str "\x7b\"require_tls\" : false, \"host\":\"h\"\x7d"

/-- The pool in a section, the threads at the root, and the name of the node last. -/
def mixedRoot : Bytes :=
  str "\x7b\"pool\":\x7b\"require_tls\" : false, \"host\":\"h\"\x7d ,\n\"threads\":2,\"node_id\":\"a\\\"b\"\x7d"

def mixedDocument : Bytes := str " " ++ mixedRoot ++ str "\n"

theorem objectText_mixedPool :
    ObjectText mixedPool [(str "require_tls", str "false"), (str "host", str "\"h\"")] := by
  have hspace : Blank (str " ") := by simp [Blank, str]
  have hlast := @MembersText.last (str " ") [] [] [] (str "host") (str "\"h\"") hspace blank_nil
    blank_nil blank_nil
  have hmembers := @MembersText.cons [] (str " ") (str " ") [] (str "require_tls") (str "false") _ _
    blank_nil hspace hspace blank_nil hlast
  have htext : mixedPool = ch '\x7b' :: ([] ++ quoted (str "require_tls") ++ str " " ++ ch ':' ::
      str " " ++ str "false" ++ [] ++ ch ',' :: (str " " ++ quoted (str "host") ++ [] ++ ch ':' ::
        [] ++ str "\"h\"" ++ [])) ++ [ch '\x7d'] := by
    decide +kernel
  rw [htext]
  exact .members hmembers

theorem objectText_mixedRoot : ObjectText mixedRoot
    [(str "pool", mixedPool), (str "threads", str "2"), (str "node_id", str "\"a\\\"b\"")] := by
  have hspace : Blank (str " ") := by simp [Blank, str]
  have hbreak : Blank (str "\n") := by simp [Blank, str]
  have hlast := @MembersText.last [] [] [] [] (str "node_id") (str "\"a\\\"b\"") blank_nil blank_nil
    blank_nil blank_nil
  have hmembers := @MembersText.cons [] [] [] (str " ") (str "pool") mixedPool _ _ blank_nil blank_nil
    blank_nil hspace (@MembersText.cons (str "\n") [] [] [] (str "threads") (str "2") _ _ hbreak
      blank_nil blank_nil blank_nil hlast)
  have htext : mixedRoot = ch '\x7b' :: ([] ++ quoted (str "pool") ++ [] ++ ch ':' :: [] ++ mixedPool
      ++ str " " ++ ch ',' :: (str "\n" ++ quoted (str "threads") ++ [] ++ ch ':' :: [] ++ str "2"
        ++ [] ++ ch ',' :: ([] ++ quoted (str "node_id") ++ [] ++ ch ':' :: [] ++ str "\"a\\\"b\""
          ++ []))) ++ [ch '\x7d'] := by
    decide +kernel
  rw [htext]
  exact .members hmembers

def mixedRendering : Rendering mixedAssignment mixedDocument where
  flat k := k = .threads
  sections := [.pool]
  sectionMembers _ := [(str "require_tls", str "false"), (str "host", str "\"h\"")]
  sectionText _ := mixedPool
  rootMembers := [(str "pool", mixedPool), (str "threads", str "2"),
    (str "node_id", str "\"a\\\"b\"")]
  rootText := mixedRoot
  before := str " "
  after := str "\n"
  sections_nodup := by decide
  sections_of_nested k sec hvalue hflat hhome := by
    cases k <;> cases hvalue <;> cases hhome
    · decide
    · decide
    · cases hflat
  sectionMembers_perm sec hsec := by
    obtain rfl := List.mem_singleton.1 hsec
    decide +kernel
  objectText_section _ _ := objectText_mixedPool
  rootMembers_perm := by decide +kernel
  objectText_root := objectText_mixedRoot
  blank_before := by simp [Blank, str]
  blank_after := by simp [Blank, str]
  input_eq := rfl

/-- Keys in a section and at the root, in an order of their own and with white space. -/
theorem load_rendering_mixed :
    (loadConfig 1 mixedDocument).1 = true ∧
      Key.nodeId.get (loadConfig 1 mixedDocument).2 = .string (str "a\"b") ∧
      Key.host.get (loadConfig 1 mixedDocument).2 = .string (str "h") ∧
      Key.requireTls.get (loadConfig 1 mixedDocument).2 = .bool false ∧
      Key.threads.get (loadConfig 1 mixedDocument).2 = .number 2 ∧
      Key.port.get (loadConfig 1 mixedDocument).2 = Key.port.get (.default 1) := by
  obtain ⟨hloaded, hfields⟩ := load_rendering 1 mixedAssignment mixedDocument mixedRendering
  exact ⟨hloaded, hfields .nodeId, hfields .host, hfields .requireTls, hfields .threads,
    hfields .port⟩

end HermitMiner
