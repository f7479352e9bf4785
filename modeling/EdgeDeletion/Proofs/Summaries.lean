/-
Summaries of configurations.

The inspector reports a row for each entry of a configuration that describes a catalog.  The width
and the number of edge types are taken from the entry, the indexes from the catalog, where the
last entry for a space counts (`Config.InForce`).

* `Catalog.space_of_inForce` — a catalog knows of a space what the entry in force says;
* `mixes_of_summary` — which entry a field of a row is taken from;
* `agrees_iff` — when a row agrees with the catalog and its entry;
* `rows_summarise_entries` — the rows of every configuration that is accepted.
-/
import EdgeDeletion.Inspect.Outcome
import EdgeDeletion.Proofs.Declarations
import Mathlib.Data.List.Dedup
import Mathlib.Data.List.Forall2

namespace EdgeDeletion

/-! ### Entries in force -/

/-- An entry is the last one for its space. -/
def Config.InForce (config : Config) (d : SpaceDeclaration) : Prop :=
  ∃ front back, config.spaces = front ++ d :: back ∧ ∀ d' ∈ back, d'.id ≠ d.id

/-- The edge types of an entry, each once. -/
def SpaceDeclaration.types (d : SpaceDeclaration) : List EdgeType := (d.edges.map (·.type)).dedup

def SpaceDeclaration.indexNames (d : SpaceDeclaration) : List String := d.indexes.map (·.name)

namespace Config

variable {config : Config} {d d' : SpaceDeclaration}

theorem exists_last {ds : List SpaceDeclaration} (h : d ∈ ds) : ∃ front d' back,
    ds = front ++ d' :: back ∧ d'.id = d.id ∧ ∀ b ∈ back, b.id ≠ d'.id := by
  induction ds generalizing d with
  | nil => exact absurd h List.not_mem_nil
  | cons first ds ih =>
    by_cases hlater : ∃ d' ∈ ds, d'.id = d.id
    · obtain ⟨d', hd', hid⟩ := hlater
      obtain ⟨front, last, back, rfl, hlast, hback⟩ := ih hd'
      exact ⟨first :: front, last, back, rfl, hlast.trans hid, hback⟩
    · simp only [not_exists, not_and] at hlater
      obtain rfl | hd := List.mem_cons.1 h
      · exact ⟨[], d, ds, rfl, rfl, hlater⟩
      · exact absurd rfl (hlater d hd)

/-- Every space that is declared has an entry in force. -/
theorem exists_inForce (h : d ∈ config.spaces) : ∃ d', config.InForce d' ∧ d'.id = d.id := by
  obtain ⟨front, d', back, hspaces, hid, hback⟩ := exists_last h
  exact ⟨d', ⟨front, back, hspaces, hback⟩, hid⟩

end Config

namespace Catalog

variable {config : Config} {c : Catalog} {d : SpaceDeclaration}

/-- A catalog knows of a space what the entry in force says. -/
theorem space_of_inForce (h : ofConfig config = .ok c) (hd : config.InForce d) :
    c.space d.id = .ok d.info ∧ ∀ e ∈ d.edges, 0 < e.type.toInt := by
  rw [ofConfig_eq, unlessWrong_eq_ok_iff] at h
  obtain ⟨hnone, rfl⟩ := h
  obtain ⟨front, back, hspaces, hlast⟩ := hd
  have hd : d.offences = [] := List.flatMap_eq_nil_iff.1 hnone d (by rw [hspaces]; simp)
  refine ⟨space_eq_ok_iff.2 ?_, (SpaceDeclaration.offences_eq_nil_iff.1 hd).1⟩
  rw [hspaces]
  exact OrderedMap.get?_insertEach_of_last hlast _

/-- The forward types with a schema are those of the entry. -/
theorem mem_types_iff (hspace : c.space d.id = .ok d.info)
    (hforward : ∀ e ∈ d.edges, 0 < e.type.toInt) {type : EdgeType} :
    type ∈ d.types ↔ 0 < type.toInt ∧ ∃ schema, c.edgeSchema d.id type = .ok schema := by
  have hkeys : type ∈ d.types ↔ (d.info.schemas.get? type).isSome = true := by
    rw [← OrderedMap.mem_keys_iff, SpaceDeclaration.info, OrderedMap.mem_keys_insertEach,
      SpaceDeclaration.types, List.mem_dedup]
    simp [OrderedMap.keys, OrderedMap.empty]
  constructor
  · intro hmem
    obtain ⟨e, he, rfl⟩ := List.mem_map.1 (List.mem_dedup.1 hmem)
    obtain ⟨schema, hschema⟩ := Option.isSome_iff_exists.1 (hkeys.1 hmem)
    refine ⟨hforward e he, schema, ?_⟩
    rw [edgeSchema_of_space hspace, forwardType_of_pos (hforward e he), hschema]
  · rintro ⟨hpos, schema, hschema⟩
    rw [edgeSchema_of_space hspace, forwardType_of_pos hpos] at hschema
    rw [hkeys]
    cases hget : d.info.schemas.get? type with
    | some schema => rfl
    | none => simp [hget] at hschema

end Catalog

namespace Inspect

/-- A row agrees with a catalog and with an entry. -/
structure SpaceSummary.Agrees (row : SpaceSummary) (c : Catalog) (d : SpaceDeclaration) : Prop where
  width : c.vidLen row.id = .ok row.vidLen
  /-- The row has the number of forward edge types with a schema. -/
  edgeTypes : ∃ types : List EdgeType, types.Nodup ∧ types.length = row.edgeTypes ∧
    ∀ type, type ∈ types ↔ 0 < type.toInt ∧ ∃ schema, c.edgeSchema row.id type = .ok schema
  indexes : row.indexes = d.indexNames

theorem forall₂_of_mapM {α β ε : Type} {f : α → Except ε β} {xs : List α} {ys : List β}
    (h : xs.mapM f = .ok ys) : List.Forall₂ (fun x y => f x = .ok y) xs ys := by
  induction xs generalizing ys with
  | nil =>
    obtain rfl := Except.ok.inj h
    exact .nil
  | cons x xs ih =>
    rw [List.mapM_cons] at h
    obtain ⟨y, hy, h⟩ := Except.exists_of_bind h
    obtain ⟨zs, hzs, h⟩ := Except.exists_of_bind h
    obtain rfl := Except.ok.inj h
    exact .cons hy (ih hzs)

theorem ConfigSummary.of?_eq_ok {config : Config} {s : ConfigSummary} (h : of? config = .ok s) :
    ∃ c, Catalog.ofConfig config = .ok c ∧ s.logConflictKeys = config.options.logConflictKeys ∧
      List.Forall₂ (fun d row => SpaceSummary.of? c d = .ok row) config.spaces s.spaces := by
  rw [of?] at h
  obtain ⟨c, hc, h⟩ := Except.exists_of_bind h
  obtain ⟨rows, hrows, h⟩ := Except.exists_of_bind h
  obtain rfl := Except.ok.inj h
  exact ⟨c, hc, rfl, forall₂_of_mapM hrows⟩

/-- What a row says: the width and the number of declared edge types of its own entry, and the
names of the indexes of the entry in force. -/
structure SpaceSummary.Mixes (row : SpaceSummary) (d d' : SpaceDeclaration) : Prop where
  id : row.id = d.id
  width : row.vidLen = d.vidLen
  edgeTypes : row.edgeTypes = d.edges.length
  indexes : row.indexes = d'.indexNames

theorem mixes_of_summary {config : Config} {c : Catalog} {d d' : SpaceDeclaration}
    {row : SpaceSummary} (hc : Catalog.ofConfig config = .ok c) (hd' : config.InForce d')
    (hid : d'.id = d.id) (h : SpaceSummary.of? c d = .ok row) : row.Mixes d d' := by
  obtain ⟨hspace, -⟩ := Catalog.space_of_inForce hc hd'
  rw [SpaceSummary.of?, Catalog.edgeIndexes, ← hid, hspace] at h
  obtain rfl := Except.ok.inj h
  exact ⟨hid, rfl, rfl, rfl⟩

/-- A row agrees with the catalog and its entry if the entry in force says the same. -/
theorem agrees_iff {config : Config} {c : Catalog} {d d' : SpaceDeclaration}
    {row : SpaceSummary} (hc : Catalog.ofConfig config = .ok c) (hd' : config.InForce d')
    (hid : d'.id = d.id) (h : row.Mixes d d') :
    row.Agrees c d ↔ d.vidLen ≠ 0 ∧ d'.vidLen = d.vidLen ∧ d'.types.length = d.edges.length ∧
      d'.indexNames = d.indexNames := by
  obtain ⟨hspace, hforward⟩ := Catalog.space_of_inForce hc hd'
  have hrow : row.id = d'.id := h.id.trans hid.symm
  have hwidth : c.vidLen d'.id = if d'.vidLen = 0 then .error .zeroWidth else .ok d'.vidLen := by
    rw [Catalog.vidLen, hspace]
    rfl
  constructor
  · intro hagrees
    have hrowWidth := hagrees.width
    rw [hrow, hwidth, h.width] at hrowWidth
    split at hrowWidth
    · cases hrowWidth
    · rename_i hzero
      have heq : d'.vidLen = d.vidLen := Except.ok.inj hrowWidth
      obtain ⟨types, hnodup, hlen, htypes⟩ := hagrees.edgeTypes
      rw [hrow] at htypes
      have hperm : types.Perm d'.types := (List.perm_ext_iff_of_nodup hnodup (List.nodup_dedup _)).2
        fun type => (htypes type).trans (Catalog.mem_types_iff hspace hforward).symm
      refine ⟨heq ▸ hzero, heq, ?_, h.indexes.symm.trans hagrees.indexes⟩
      rw [← hperm.length_eq, hlen, h.edgeTypes]
  · rintro ⟨hzero, heq, htypes, hindexes⟩
    refine ⟨?_, ⟨d'.types, List.nodup_dedup _, htypes.trans h.edgeTypes.symm, fun type => ?_⟩,
      h.indexes.trans hindexes⟩
    · rw [hrow, hwidth, heq, if_neg hzero, h.width]
    · rw [hrow]
      exact Catalog.mem_types_iff hspace hforward

/-- The row of an entry in force agrees with it, unless the width is zero or an edge type is
declared again. -/
theorem agrees_of_inForce {config : Config} {c : Catalog} {d : SpaceDeclaration}
    {row : SpaceSummary} (hc : Catalog.ofConfig config = .ok c) (hd : config.InForce d)
    (h : SpaceSummary.of? c d = .ok row) (hzero : d.vidLen ≠ 0)
    (htypes : (d.edges.map (·.type)).Nodup) : row.Agrees c d := by
  refine (agrees_iff hc hd rfl (mixes_of_summary hc hd rfl h)).2 ⟨hzero, rfl, ?_, rfl⟩
  rw [SpaceDeclaration.types, htypes.dedup, List.length_map]

theorem checkConfig_eq_ok {path text : String} {report : Report}
    (h : checkConfig path (.ok text) = .ok report) :
    ∃ config s, Config.parse text = some config ∧ ConfigSummary.of? config = .ok s ∧
      report = .config s := by
  simp only [checkConfig] at h
  cases hparse : Config.parse text with
  | none => simp [hparse] at h
  | some config =>
    simp only [hparse] at h
    cases hs : ConfigSummary.of? config with
    | error e => simp [hs] at h
    | ok s =>
      simp only [hs, Except.ok.injEq] at h
      exact ⟨config, s, rfl, hs, h.symm⟩

/-- **Rows summarise entries.**  A configuration that is accepted has a catalog, and a row for each
of its entries, in order.  A row has the width and the number of declared edge types of its own
entry, but the index names of the entry in force for its space.  So it agrees with the catalog and
with its entry just if the entry in force has the same width, which is not zero, as many edge
types as are declared, and the same index names.  In particular the row of an entry in force agrees
if its width is not zero and no edge type is declared again. -/
theorem rows_summarise_entries {path text : String} {report : Report}
    (h : checkConfig path (.ok text) = .ok report) :
    ∃ config c s, Config.parse text = some config ∧ Catalog.ofConfig config = .ok c ∧
      report = .config s ∧ s.logConflictKeys = config.options.logConflictKeys ∧
      List.Forall₂ (fun d row =>
        (∃ d', config.InForce d' ∧ d'.id = d.id ∧ row.Mixes d d' ∧
          (row.Agrees c d ↔ d.vidLen ≠ 0 ∧ d'.vidLen = d.vidLen ∧
            d'.types.length = d.edges.length ∧ d'.indexNames = d.indexNames)) ∧
        (config.InForce d → d.vidLen ≠ 0 → (d.edges.map (·.type)).Nodup → row.Agrees c d))
        config.spaces s.spaces := by
  obtain ⟨config, s, hparse, hs, rfl⟩ := checkConfig_eq_ok h
  obtain ⟨c, hc, hoption, hrows⟩ := ConfigSummary.of?_eq_ok hs
  refine ⟨config, c, s, hparse, hc, rfl, hoption, ?_⟩
  have hforce : ∀ d ∈ config.spaces, ∃ d', config.InForce d' ∧ d'.id = d.id :=
    fun d => Config.exists_inForce
  refine ((List.forall₂_and_left _ _).2 ⟨hforce, hrows⟩).imp fun d row hrow => ?_
  obtain ⟨⟨d', hd', hid⟩, hrow⟩ := hrow
  have hmixes := mixes_of_summary hc hd' hid hrow
  exact ⟨⟨d', hd', hid, hmixes, agrees_iff hc hd' hid hmixes⟩,
    fun hd => agrees_of_inForce hc hd hrow⟩

/-- A file with two entries for a space, of which only the first one declares an index. -/
def supersededFile : String :=
  "[[spaces]]\nid = 1\nvid_len = 8\n[[spaces.edges]]\nedge_type = 1\n" ++
    "[[spaces.indexes]]\nid = 10\nname = \"i\"\nedge_type = 1\n" ++
    "[[spaces]]\nid = 1\nvid_len = 8\n[[spaces.edges]]\nedge_type = 1\n"

def indexedEntry : SpaceDeclaration := ⟨1, 8, [⟨1, []⟩], [⟨10, 1, "i", []⟩]⟩

def bareEntry : SpaceDeclaration := ⟨1, 8, [⟨1, []⟩], []⟩

theorem parse_superseded :
    Config.parse supersededFile = some ⟨{}, [indexedEntry, bareEntry]⟩ := by
  decide +kernel

theorem summary_superseded : ConfigSummary.of? ⟨{}, [indexedEntry, bareEntry]⟩
    = .ok ⟨true, [⟨1, 8, 1, []⟩, ⟨1, 8, 1, []⟩]⟩ := by
  decide +kernel

theorem checkConfig_superseded : checkConfig "shard.toml" (.ok supersededFile)
    = .ok (.config ⟨true, [⟨1, 8, 1, []⟩, ⟨1, 8, 1, []⟩]⟩) := by
  simp only [checkConfig, parse_superseded, summary_superseded]

/-- The row of the second entry agrees. -/
theorem rows_summarise_entries_superseded :
    checkConfig "shard.toml" (.ok supersededFile)
        = .ok (.config ⟨true, [⟨1, 8, 1, []⟩, ⟨1, 8, 1, []⟩]⟩) ∧
      ∃ c, Catalog.ofConfig ⟨{}, [indexedEntry, bareEntry]⟩ = .ok c ∧
        SpaceSummary.Agrees ⟨1, 8, 1, []⟩ c bareEntry := by
  obtain ⟨config, c, s, hparse, hc, hs, -, hrows⟩ := rows_summarise_entries checkConfig_superseded
  obtain rfl := Option.some.inj (hparse.symm.trans parse_superseded)
  obtain rfl := Report.config.inj hs
  obtain _ | ⟨-, _ | ⟨⟨-, hlast⟩, -⟩⟩ := hrows
  exact ⟨checkConfig_superseded, c, hc, hlast ⟨[indexedEntry], [], rfl, nofun⟩ (by decide)
    (by decide)⟩

/-- The row of the first entry shows no index, although the entry declares one. -/
theorem superseded_row_disagrees : ∃ c row, checkConfig "shard.toml" (.ok supersededFile)
      = .ok (.config ⟨true, [row, ⟨1, 8, 1, []⟩]⟩) ∧
    Config.parse supersededFile = some ⟨{}, [indexedEntry, bareEntry]⟩ ∧
    Catalog.ofConfig ⟨{}, [indexedEntry, bareEntry]⟩ = .ok c ∧
    indexedEntry.indexNames = ["i"] ∧ row.indexes = [] ∧ ¬row.Agrees c indexedEntry := by
  obtain ⟨c, hc, -⟩ := ConfigSummary.of?_eq_ok summary_superseded
  refine ⟨c, ⟨1, 8, 1, []⟩, checkConfig_superseded, parse_superseded, hc, rfl, rfl, fun h => ?_⟩
  exact absurd h.indexes (by decide)

end Inspect

end EdgeDeletion
