/-
What holds of every catalog that was built by its operations.

An operation that fails leaves the catalog as it was.  Whatever was done, the schemas of a
space are those of forward edge types, its indexes are on types with a schema, and no two
of them have the same number.

* `edit_of_failed` — failures change nothing;
* `Sound.edit` — each operation keeps what holds, also where it resets a space, replaces a
  schema or loads a configuration;
* `sound_run` — so it holds of every catalog that can be reached.
-/
import EdgeDeletion.Config
import Mathlib.Data.List.Nodup

namespace EdgeDeletion

/-- The schemas are those of forward types, the indexes are on types with a schema, and their
numbers are different. -/
structure SpaceInfo.Sound (info : SpaceInfo) : Prop where
  forward : ∀ type ∈ info.schemas.keys, 0 < type.toInt
  typed : ∀ i ∈ info.indexes, i.edgeType ∈ info.schemas.keys
  distinct : (info.indexes.map (·.id)).Nodup

theorem Except.exists_of_bind {ε α β : Type} {x : Except ε α} {f : α → Except ε β} {b : β}
    (h : (x >>= f) = .ok b) : ∃ a, x = .ok a ∧ f a = .ok b := by
  cases x with
  | error e => exact absurd h nofun
  | ok a => exact ⟨a, rfl, h⟩

theorem Except.exists_of_map {ε α β : Type} {x : Except ε α} {f : α → β} {b : β}
    (h : x.map f = .ok b) : ∃ a, x = .ok a ∧ f a = b := by
  cases x with
  | error e => exact absurd h nofun
  | ok a => exact ⟨a, rfl, Except.ok.inj h⟩

namespace Catalog

variable {c c' : Catalog} {space : SpaceId} {info : SpaceInfo}

/-- All spaces of the catalog are sound. -/
def Sound (c : Catalog) : Prop := ∀ space info, c.spaces.get? space = some info → info.Sound

/-- An operation on a catalog. -/
inductive Edit where
  | addSpace (space : SpaceId) (vidLen : Nat)
  | dropSpace (space : SpaceId)
  | addSchema (space : SpaceId) (type : EdgeType) (schema : EdgeSchema)
  | addIndex (space : SpaceId) (index : Index)
  | dropIndex (space : SpaceId) (index : IndexId)
  /-- Goes on with the catalog of a configuration. -/
  | load (config : Config)

/-- The outcome of an operation that may fail. -/
def settled (c : Catalog) : Except CatalogError Catalog → Bool × Catalog
  | .ok c => (true, c)
  | .error _ => (false, c)

/-- Does one operation and tells whether it succeeded. -/
def edit (c : Catalog) : Edit → Bool × Catalog
  | .addSpace space vidLen => (true, c.addSpace space vidLen)
  | .dropSpace space => c.dropSpace space
  | .addSchema space type schema => c.settled (c.addSchema space type schema)
  | .addIndex space index => c.settled (c.addIndex space index)
  | .dropIndex space index => c.dropIndex space index
  | .load config => c.settled (ofConfig config)

/-- Does one operation after the other, whether they succeed or not. -/
def run (c : Catalog) (edits : List Edit) : Catalog := edits.foldl (fun c e => (c.edit e).2) c

/-! ### Failures -/

theorem settled_of_failed {result : Except CatalogError Catalog}
    (h : (c.settled result).1 = false) : (c.settled result).2 = c := by
  cases result with
  | ok c' => exact absurd h nofun
  | error e => rfl

theorem dropSpace_of_failed (h : (c.dropSpace space).1 = false) : (c.dropSpace space).2 = c := by
  have hnone : c.spaces.get? space = none := by
    simpa [dropSpace, OrderedMap.contains] using h
  refine congrArg Catalog.mk (OrderedMap.ext fun space' => ?_)
  rw [OrderedMap.get?_erase]
  by_cases hspace : space' = space
  · rw [if_pos hspace, hspace, hnone]
  · rw [if_neg hspace]

theorem dropIndex_of_failed {index : IndexId} (h : (c.dropIndex space index).1 = false) :
    (c.dropIndex space index).2 = c := by
  rw [dropIndex] at h ⊢
  cases hinfo : c.spaces.get? space with
  | none => rfl
  | some info =>
    simp only [hinfo, bne_eq_false_iff_eq] at h ⊢
    -- no index was left out, so the space is stored as it was
    have hkept : (info.indexes.filter fun i => i.id != index) = info.indexes :=
      List.filter_eq_self.2 (List.length_filter_eq_length_iff.1 h)
    rw [hkept, OrderedMap.insert_eq_self hinfo]

/-- An operation that fails changes nothing. -/
theorem edit_of_failed {e : Edit} (h : (c.edit e).1 = false) : (c.edit e).2 = c := by
  cases e with
  | addSpace space vidLen => exact absurd h nofun
  | dropSpace space => exact dropSpace_of_failed h
  | dropIndex space index => exact dropIndex_of_failed h
  | addSchema space type schema => exact settled_of_failed h
  | addIndex space index => exact settled_of_failed h
  | load config => exact settled_of_failed h

/-! ### Operations one by one -/

theorem sound_empty : Sound .empty := fun _ _ h => absurd h nofun

theorem Sound.insert (h : c.Sound) (hinfo : info.Sound) : Sound ⟨c.spaces.insert space info⟩ := by
  intro space' info' hget
  rw [OrderedMap.get?_insert] at hget
  by_cases hspace : space' = space
  · rw [if_pos hspace] at hget
    exact Option.some.inj hget ▸ hinfo
  · rw [if_neg hspace] at hget
    exact h space' info' hget

theorem space_eq_ok_iff : c.space space = .ok info ↔ c.spaces.get? space = some info := by
  rw [Catalog.space]
  cases c.spaces.get? space <;> simp

theorem Sound.addSpace (h : c.Sound) (space : SpaceId) (vidLen : Nat) :
    (c.addSpace space vidLen).Sound :=
  h.insert ⟨fun _ hmem => absurd hmem List.not_mem_nil, fun _ hmem => absurd hmem List.not_mem_nil,
    .nil⟩

theorem Sound.dropSpace (h : c.Sound) (space : SpaceId) : (c.dropSpace space).2.Sound := by
  intro space' info hget
  rw [Catalog.dropSpace, OrderedMap.get?_erase] at hget
  by_cases hspace : space' = space
  · simp [hspace] at hget
  · rw [if_neg hspace] at hget
    exact h space' info hget

/-- What it takes to register a schema, and what that does. -/
theorem of_addSchema {type : EdgeType} {schema : EdgeSchema}
    (h : c.addSchema space type schema = .ok c') :
    0 < type.toInt ∧ ∃ info, c.spaces.get? space = some info ∧
      c' = ⟨c.spaces.insert space { info with schemas := info.schemas.insert type schema }⟩ := by
  rw [addSchema] at h
  by_cases htype : type.toInt ≤ 0
  · simp [htype] at h
  · rw [if_neg htype] at h
    obtain ⟨info, hinfo, rfl⟩ := Except.exists_of_map h
    exact ⟨Int.not_le.1 htype, info, space_eq_ok_iff.1 hinfo, rfl⟩

/-- What it takes to add an index, and what that does. -/
theorem of_addIndex {index : Index} (h : c.addIndex space index = .ok c') :
    ∃ info, c.spaces.get? space = some info ∧ index.edgeType ∈ info.schemas.keys ∧
      index.id ∉ info.indexes.map (·.id) ∧
      c' = ⟨c.spaces.insert space { info with indexes := info.indexes ++ [index] }⟩ := by
  obtain ⟨info, hinfo, h⟩ := Except.exists_of_bind h
  by_cases htyped : info.schemas.contains index.edgeType = true
  · by_cases htaken : (info.indexes.any fun i => i.id == index.id) = true
    · simp [htyped, htaken] at h
    · rw [htyped, if_neg (by decide), if_neg htaken] at h
      exact ⟨info, space_eq_ok_iff.1 hinfo, OrderedMap.mem_keys_iff.2 htyped, by simpa using htaken,
        (Except.ok.inj h).symm⟩
  · simp [htyped] at h

/-- A schema may replace an earlier one; no type loses its schema. -/
theorem Sound.addSchema (h : c.Sound) {type : EdgeType} {schema : EdgeSchema}
    (hadd : c.addSchema space type schema = .ok c') : c'.Sound := by
  obtain ⟨htype, info, hget, rfl⟩ := of_addSchema hadd
  have hinfo := h space info hget
  refine h.insert ⟨fun type' hmem => ?_, fun i hi => ?_, hinfo.distinct⟩
  · rcases OrderedMap.mem_keys_insert.1 hmem with rfl | hmem
    · exact htype
    · exact hinfo.forward type' hmem
  · exact OrderedMap.mem_keys_insert.2 (.inr (hinfo.typed i hi))

theorem Sound.addIndex (h : c.Sound) {index : Index} (hadd : c.addIndex space index = .ok c') :
    c'.Sound := by
  obtain ⟨info, hget, htyped, hnew, rfl⟩ := of_addIndex hadd
  have hinfo := h space info hget
  refine h.insert ⟨hinfo.forward, fun i hi => ?_, ?_⟩
  · rcases List.mem_append.1 hi with hi | hi
    · exact hinfo.typed i hi
    · rw [List.mem_singleton.1 hi]
      exact htyped
  · rw [List.map_append, List.map_singleton]
    exact List.nodup_append_comm.1 (List.nodup_cons.2 ⟨hnew, hinfo.distinct⟩)

theorem Sound.dropIndex (h : c.Sound) (space : SpaceId) (index : IndexId) :
    (c.dropIndex space index).2.Sound := by
  rw [Catalog.dropIndex]
  cases hget : c.spaces.get? space with
  | none => exact h
  | some info =>
    have hinfo := h space info hget
    exact h.insert ⟨hinfo.forward, fun i hi => hinfo.typed i (List.mem_of_mem_filter hi),
      hinfo.distinct.sublist (List.filter_sublist.map _)⟩

/-! ### Configurations -/

theorem Sound.addSchemas {ds : List EdgeDeclaration} (h : c.Sound)
    (hadd : addSchemas space ds c = .ok c') : c'.Sound := by
  induction ds generalizing c with
  | nil => exact Except.ok.inj hadd ▸ h
  | cons d ds ih =>
    obtain ⟨c₁, hfirst, hrest⟩ := Except.exists_of_bind hadd
    exact ih (h.addSchema hfirst) hrest

theorem Sound.addIndexes {is : List Index} (h : c.Sound) (hadd : addIndexes space is c = .ok c') :
    c'.Sound := by
  induction is generalizing c with
  | nil => exact Except.ok.inj hadd ▸ h
  | cons i is ih =>
    obtain ⟨c₁, hfirst, hrest⟩ := Except.exists_of_bind hadd
    exact ih (h.addIndex hfirst) hrest

theorem Sound.declare {d : SpaceDeclaration} (h : c.Sound) (hadd : c.declare d = .ok c') :
    c'.Sound := by
  obtain ⟨c₁, hschemas, hindexes⟩ := Except.exists_of_bind hadd
  have hspace : (c.addSpace d.id d.vidLen).Sound := h.addSpace d.id d.vidLen
  exact (hspace.addSchemas hschemas).addIndexes hindexes

theorem Sound.declareAll {ds : List SpaceDeclaration} (h : c.Sound)
    (hadd : declareAll ds c = .ok c') : c'.Sound := by
  induction ds generalizing c with
  | nil => exact Except.ok.inj hadd ▸ h
  | cons d ds ih =>
    obtain ⟨c₁, hfirst, hrest⟩ := Except.exists_of_bind hadd
    exact ih (h.declare hfirst) hrest

/-! ### Runs -/

theorem Sound.settled (h : c.Sound) {result : Except CatalogError Catalog}
    (hresult : ∀ c', result = .ok c' → c'.Sound) : (c.settled result).2.Sound := by
  cases result with
  | ok c' => exact hresult c' rfl
  | error e => exact h

/-- Each operation keeps a catalog sound. -/
theorem Sound.edit (h : c.Sound) (e : Edit) : (c.edit e).2.Sound := by
  cases e with
  | addSpace space vidLen => exact h.addSpace space vidLen
  | dropSpace space => exact h.dropSpace space
  | addSchema space type schema => exact h.settled fun c' hadd => h.addSchema hadd
  | addIndex space index => exact h.settled fun c' hadd => h.addIndex hadd
  | dropIndex space index => exact h.dropIndex space index
  | load config => exact h.settled fun c' hload => sound_empty.declareAll hload

/-- Every catalog that can be reached is sound. -/
theorem sound_run (edits : List Edit) : (run .empty edits).Sound := by
  have hall : ∀ c : Catalog, c.Sound → (c.run edits).Sound := by
    induction edits with
    | nil => exact fun c h => h
    | cons e edits ih => exact fun c h => ih (c.edit e).2 (h.edit e)
  exact hall .empty sound_empty

/-- No index of a sound catalog is on a type that is not a forward one. -/
theorem Sound.edgeType_pos (h : c.Sound) {indexes : List Index}
    (hindexes : c.edgeIndexes space = .ok indexes) : ∀ i ∈ indexes, 0 < i.edgeType.toInt := by
  obtain ⟨info, hget, rfl⟩ := Except.exists_of_map hindexes
  have hinfo := h space info (space_eq_ok_iff.1 hget)
  exact fun i hi => hinfo.forward _ (hinfo.typed i hi)

end Catalog

end EdgeDeletion
