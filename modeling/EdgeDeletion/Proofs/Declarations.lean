/-
The catalog of a configuration.

A configuration is taken entry by entry, and what the entries add up to is known beforehand.
Each of them may offend: by an edge type that is not a forward one, by an index on a type that
it does not declare itself, or by an index with the number of an earlier one (`offences`).
The first offence in the order of the configuration decides.  Without one, a space is what its last
entry says (`SpaceDeclaration.info`), and earlier entries leave no trace.

* `offences_eq_nil_iff` — which entries offend;
* `addSchemas_setSpace`, `addIndexes_setSpace`, `declare_eq`, `declareAll_eq` — what declarations
  add up to;
* `last_declaration_wins` — when a configuration has a catalog, and what it answers.
-/
import EdgeDeletion.Proofs.CatalogEdits

namespace EdgeDeletion

universe u v w

namespace OrderedMap

variable {κ : Type u} {ν : Type v} {α : Type w} [KeyOrder κ] [DecidableEq κ]

theorem insert_insert (m : OrderedMap κ ν) (k : κ) (v v' : ν) :
    (m.insert k v).insert k v' = m.insert k v' := by
  refine OrderedMap.ext fun k' => ?_
  simp only [get?_insert]
  split <;> rfl

/-- Stores what is made of the members of a list, each over an earlier one with its key. -/
def insertEach (key : α → κ) (value : α → ν) : List α → OrderedMap κ ν → OrderedMap κ ν
  | [], m => m
  | x :: xs, m => insertEach key value xs (m.insert (key x) (value x))

variable {key : α → κ} {value : α → ν} {xs : List α}

/-- What has another key is left as it is. -/
theorem get?_insertEach_of_ne {k : κ} (h : ∀ x ∈ xs, key x ≠ k) (m : OrderedMap κ ν) :
    (insertEach key value xs m).get? k = m.get? k := by
  induction xs generalizing m with
  | nil => rfl
  | cons x xs ih =>
    obtain ⟨hne, hrest⟩ := List.forall_mem_cons.1 h
    rw [insertEach, ih hrest, get?_insert, if_neg (Ne.symm hne)]

/-- The last member with a key counts. -/
theorem get?_insertEach_of_last {front back : List α} {x : α} (h : ∀ y ∈ back, key y ≠ key x)
    (m : OrderedMap κ ν) :
    (insertEach key value (front ++ x :: back) m).get? (key x) = some (value x) := by
  induction front generalizing m with
  | nil => rw [List.nil_append, insertEach, get?_insertEach_of_ne h, get?_insert, if_pos rfl]
  | cons y front ih => exact ih _

theorem mem_keys_insertEach {k : κ} {m : OrderedMap κ ν} :
    k ∈ (insertEach key value xs m).keys ↔ k ∈ xs.map key ∨ k ∈ m.keys := by
  induction xs generalizing m with
  | nil => simp [insertEach]
  | cons x xs ih =>
    rw [insertEach, ih, mem_keys_insert, List.map_cons, List.mem_cons]
    tauto

end OrderedMap

/-! ### Offences -/

/-- What is wrong with the declaration of an edge type. -/
def EdgeDeclaration.offence? (d : EdgeDeclaration) : Option CatalogError :=
  if d.type.toInt ≤ 0 then some .notForward else none

/-- What is wrong with an index that stands behind others, where some types have a schema. -/
def Index.offence? (types : List EdgeType) (front : List Index) (i : Index) :
    Option CatalogError :=
  if i.edgeType ∉ types then some .unknownEdgeType
  else if i.id ∈ front.map (·.id) then some .indexIdTaken
  else none

/-- What is wrong with indexes that stand behind others, in their order. -/
def Index.offences (types : List EdgeType) : (front : List Index) → List Index → List CatalogError
  | _, [] => []
  | front, i :: is => (i.offence? types front).toList ++ offences types (front ++ [i]) is

namespace SpaceDeclaration

/-- What is wrong with the declaration of a space: with its edge types, and then with its
indexes. -/
def offences (d : SpaceDeclaration) : List CatalogError :=
  d.edges.filterMap EdgeDeclaration.offence? ++
    Index.offences (d.edges.map (·.type)) [] d.indexes

/-- What the declaration of a space says. -/
def info (d : SpaceDeclaration) : SpaceInfo where
  vidLen := d.vidLen
  schemas := .insertEach EdgeDeclaration.type EdgeDeclaration.schema d.edges .empty
  indexes := d.indexes

end SpaceDeclaration

theorem Index.offences_eq_nil_iff {types : List EdgeType} {front is : List Index} :
    offences types front is = [] ↔
      (∀ i ∈ is, i.edgeType ∈ types) ∧ (is.map (·.id)).Nodup ∧
        ∀ i ∈ is, i.id ∉ front.map (·.id) := by
  induction is generalizing front with
  | nil => simp [offences]
  | cons i is ih =>
    have hfirst : (i.offence? types front).toList = [] ↔
        i.edgeType ∈ types ∧ i.id ∉ front.map (·.id) := by
      rw [offence?]
      by_cases htyped : i.edgeType ∈ types <;> by_cases htaken : i.id ∈ front.map (·.id) <;>
        simp [htyped, htaken]
    rw [offences, List.append_eq_nil_iff, hfirst, ih, List.forall_mem_cons, List.forall_mem_cons]
    simp only [List.map_append, List.map_cons, List.map_nil, List.nodup_cons, List.mem_append,
      List.mem_singleton, not_or]
    constructor
    · rintro ⟨⟨htyped, hnew⟩, htypes, hnodup, hrest⟩
      refine ⟨⟨htyped, htypes⟩, ⟨fun hmem => ?_, hnodup⟩, hnew, fun j hj => (hrest j hj).1⟩
      obtain ⟨j, hj, heq⟩ := List.mem_map.1 hmem
      exact (hrest j hj).2 heq
    · rintro ⟨⟨htyped, htypes⟩, ⟨hother, hnodup⟩, hnew, hrest⟩
      refine ⟨⟨htyped, hnew⟩, htypes, hnodup, fun j hj => ⟨hrest j hj, fun heq => ?_⟩⟩
      exact hother (List.mem_map.2 ⟨j, hj, heq⟩)

/-- A declaration is in order if its edge types are forward ones and its indexes are on them and
have different numbers. -/
theorem SpaceDeclaration.offences_eq_nil_iff {d : SpaceDeclaration} :
    d.offences = [] ↔
      (∀ e ∈ d.edges, 0 < e.type.toInt) ∧ (∀ i ∈ d.indexes, i.edgeType ∈ d.edges.map (·.type)) ∧
        (d.indexes.map (·.id)).Nodup := by
  rw [offences, List.append_eq_nil_iff, List.filterMap_eq_nil_iff, Index.offences_eq_nil_iff]
  simp [EdgeDeclaration.offence?]

/-- What can be wrong with a declaration. -/
theorem SpaceDeclaration.offences_ne_nil_iff {d : SpaceDeclaration} :
    d.offences ≠ [] ↔
      (∃ e ∈ d.edges, e.type.toInt ≤ 0) ∨
        (∃ i ∈ d.indexes, ∀ e ∈ d.edges, e.type ≠ i.edgeType) ∨
        ¬(d.indexes.map (·.id)).Nodup := by
  rw [Ne, offences_eq_nil_iff, not_and_or, not_and_or]
  simp only [List.mem_map, not_forall, not_exists, not_and, Int.not_lt, exists_prop]

namespace Catalog

variable {c : Catalog}

/-- A catalog, unless something is wrong; what is wrong first decides. -/
def unlessWrong (offences : List CatalogError) (c : Catalog) : Except CatalogError Catalog :=
  match offences with
  | [] => .ok c
  | e :: _ => .error e

/-- What is wrong first is wrong before what follows. -/
theorem unlessWrong_bind {offences offences' : List CatalogError} {c' : Catalog}
    {f : Catalog → Except CatalogError Catalog} (h : f c = unlessWrong offences' c') :
    (unlessWrong offences c >>= f) = unlessWrong (offences ++ offences') c' := by
  cases offences with
  | nil => exact h
  | cons e offences => rfl

theorem unlessWrong_eq_error_iff {offences : List CatalogError} {e : CatalogError} :
    unlessWrong offences c = .error e ↔ offences.head? = some e := by
  cases offences <;> simp [unlessWrong]

theorem unlessWrong_eq_ok_iff {offences : List CatalogError} {c' : Catalog} :
    unlessWrong offences c = .ok c' ↔ offences = [] ∧ c = c' := by
  cases offences <;> simp [unlessWrong]

/-! ### What declarations add up to -/

/-- The catalog where something else is known of a space. -/
def setSpace (c : Catalog) (space : SpaceId) (info : SpaceInfo) : Catalog :=
  ⟨c.spaces.insert space info⟩

theorem space_setSpace (c : Catalog) (space : SpaceId) (info : SpaceInfo) :
    (c.setSpace space info).space space = .ok info := by
  rw [space_eq_ok_iff, setSpace, OrderedMap.get?_insert, if_pos rfl]

theorem setSpace_setSpace (c : Catalog) (space : SpaceId) (info info' : SpaceInfo) :
    (c.setSpace space info).setSpace space info' = c.setSpace space info' :=
  congrArg Catalog.mk (OrderedMap.insert_insert ..)

variable (c) (space : SpaceId) (info : SpaceInfo)

theorem addSchema_setSpace (d : EdgeDeclaration) :
    (c.setSpace space info).addSchema space d.type d.schema =
      unlessWrong d.offence?.toList
        (c.setSpace space { info with schemas := info.schemas.insert d.type d.schema }) := by
  rw [addSchema, EdgeDeclaration.offence?, space_setSpace]
  by_cases htype : d.type.toInt ≤ 0
  · rw [if_pos htype, if_pos htype]
    rfl
  · rw [if_neg htype, if_neg htype]
    exact congrArg Except.ok (setSpace_setSpace ..)

theorem addSchemas_setSpace (ds : List EdgeDeclaration) :
    addSchemas space ds (c.setSpace space info) =
      unlessWrong (ds.filterMap EdgeDeclaration.offence?) (c.setSpace space { info with
        schemas := .insertEach EdgeDeclaration.type EdgeDeclaration.schema ds info.schemas }) := by
  induction ds generalizing info with
  | nil => rfl
  | cons d ds ih =>
    have hoffences : (d :: ds).filterMap EdgeDeclaration.offence? =
        d.offence?.toList ++ ds.filterMap EdgeDeclaration.offence? := by
      rw [List.filterMap_cons]
      cases d.offence? <;> rfl
    rw [addSchemas, addSchema_setSpace, hoffences]
    exact unlessWrong_bind (ih _)

theorem addIndex_setSpace {types : List EdgeType}
    (htypes : ∀ type, type ∈ info.schemas.keys ↔ type ∈ types) (i : Index) :
    (c.setSpace space info).addIndex space i =
      unlessWrong (i.offence? types info.indexes).toList
        (c.setSpace space { info with indexes := info.indexes ++ [i] }) := by
  have htyped : info.schemas.contains i.edgeType = true ↔ i.edgeType ∈ types := by
    rw [← htypes, OrderedMap.mem_keys_iff]
    rfl
  have htaken : (info.indexes.any fun j => j.id == i.id) = true ↔
      i.id ∈ info.indexes.map (·.id) := by simp
  have hadd : (c.setSpace space info).addIndex space i =
      if (!info.schemas.contains i.edgeType) = true then .error .unknownEdgeType
      else if (info.indexes.any fun j => j.id == i.id) = true then .error .indexIdTaken
      else .ok ((c.setSpace space info).setSpace space
        { info with indexes := info.indexes ++ [i] }) := by
    rw [addIndex, space_setSpace]
    rfl
  rw [hadd, Index.offence?]
  by_cases hfirst : i.edgeType ∈ types
  · rw [if_neg (by simp [htyped.2 hfirst]), if_neg (not_not_intro hfirst)]
    by_cases hsecond : i.id ∈ info.indexes.map (·.id)
    · rw [if_pos (htaken.2 hsecond), if_pos hsecond]
      rfl
    · rw [if_neg (fun hany => hsecond (htaken.1 hany)), if_neg hsecond]
      exact congrArg Except.ok (setSpace_setSpace ..)
  · have hunknown : (!info.schemas.contains i.edgeType) = true := by
      simpa using fun hcontains => hfirst (htyped.1 hcontains)
    rw [if_pos hunknown, if_pos hfirst]
    rfl

theorem addIndexes_setSpace {types : List EdgeType}
    (htypes : ∀ type, type ∈ info.schemas.keys ↔ type ∈ types) (is : List Index) :
    addIndexes space is (c.setSpace space info) =
      unlessWrong (Index.offences types info.indexes is)
        (c.setSpace space { info with indexes := info.indexes ++ is }) := by
  induction is generalizing info with
  | nil =>
    rw [List.append_nil]
    rfl
  | cons i is ih =>
    -- an index leaves the schemas as they are, so the same types have one behind it
    rw [addIndexes, addIndex_setSpace c space info htypes, Index.offences]
    refine unlessWrong_bind ?_
    rw [ih { info with indexes := info.indexes ++ [i] } htypes, List.append_assoc]
    rfl

variable {space info}

/-- The declaration of a space takes the place of whatever was there. -/
theorem declare_eq (d : SpaceDeclaration) :
    c.declare d = unlessWrong d.offences (c.setSpace d.id d.info) := by
  have htypes : ∀ type, type ∈ d.info.schemas.keys ↔ type ∈ d.edges.map (·.type) := by
    intro type
    rw [SpaceDeclaration.info, OrderedMap.mem_keys_insertEach]
    simp [OrderedMap.keys, OrderedMap.empty]
  -- the entry starts from an empty space, whatever was there
  have hschemas : addSchemas d.id d.edges (c.addSpace d.id d.vidLen) =
      unlessWrong (d.edges.filterMap EdgeDeclaration.offence?)
        (c.setSpace d.id { d.info with indexes := [] }) :=
    addSchemas_setSpace c d.id ⟨d.vidLen, .empty, []⟩ d.edges
  rw [declare, hschemas]
  exact unlessWrong_bind (addIndexes_setSpace c d.id { d.info with indexes := [] } htypes d.indexes)

/-- A configuration adds up to the declarations of its spaces. -/
theorem declareAll_eq (ds : List SpaceDeclaration) :
    declareAll ds c = unlessWrong (ds.flatMap SpaceDeclaration.offences)
      ⟨.insertEach SpaceDeclaration.id SpaceDeclaration.info ds c.spaces⟩ := by
  induction ds generalizing c with
  | nil => rfl
  | cons d ds ih =>
    rw [declareAll, declare_eq, List.flatMap_cons]
    exact unlessWrong_bind (ih _)

variable {c}

/-- The catalog of a configuration is that of its spaces, unless something is wrong. -/
theorem ofConfig_eq (config : Config) :
    ofConfig config = unlessWrong (config.spaces.flatMap SpaceDeclaration.offences)
      ⟨.insertEach SpaceDeclaration.id SpaceDeclaration.info config.spaces .empty⟩ :=
  declareAll_eq ..

/-! ### Answers of the catalog -/

/-- A type is its own forward type or the reverse of that. -/
theorem forwardType_cases (type : EdgeType) :
    forwardType type = type ∨ forwardType type = -type := by
  rw [forwardType]
  split
  · right
    rw [Int32.ofInt_neg, Int32.ofInt_toInt]
  · left
    rfl

/-- What a catalog answers about a space is what a declaration says. -/
structure Shows (c : Catalog) (d : SpaceDeclaration) : Prop where
  width : (c.space d.id).map (·.vidLen) = .ok d.vidLen
  /-- The width is given to whoever asks for it, unless it is zero. -/
  vidLen : c.vidLen d.id = if d.vidLen = 0 then .error .zeroWidth else .ok d.vidLen
  indexes : c.edgeIndexes d.id = .ok d.indexes
  /-- The last declaration of a type gives the schema of the type and of its reverse. -/
  schema : ∀ front e back, d.edges = front ++ e :: back → (∀ e' ∈ back, e'.type ≠ e.type) →
    c.edgeSchema d.id e.type = .ok e.schema ∧ c.edgeSchema d.id (-e.type) = .ok e.schema
  /-- No other type has a schema. -/
  unknown : ∀ type, (∀ e ∈ d.edges, e.type ≠ type ∧ e.type ≠ -type) →
    c.edgeSchema d.id type = .error .unknownEdgeType

theorem edgeSchema_of_space (h : c.space space = .ok info) (type : EdgeType) :
    c.edgeSchema space type =
      match info.schemas.get? (forwardType type) with
      | some schema => .ok schema
      | none => .error .unknownEdgeType := by
  rw [edgeSchema, h]
  rfl

theorem shows_of_space {d : SpaceDeclaration} (h : c.space d.id = .ok d.info)
    (hforward : ∀ e ∈ d.edges, 0 < e.type.toInt) : c.Shows d := by
  refine ⟨by rw [h]; rfl, by rw [Catalog.vidLen, h]; rfl, by rw [edgeIndexes, h]; rfl, ?_, ?_⟩
  · intro front e back hedges hlast
    have htype := hforward e (by rw [hedges]; simp)
    have hget : d.info.schemas.get? e.type = some e.schema := by
      rw [SpaceDeclaration.info, hedges]
      exact OrderedMap.get?_insertEach_of_last hlast _
    rw [edgeSchema_neg c d.id htype, and_self, edgeSchema_of_space h, forwardType_of_pos htype,
      hget]
  · intro type hnone
    have hget : d.info.schemas.get? (forwardType type) = none := by
      refine OrderedMap.get?_insertEach_of_ne (fun e he => ?_) _
      rcases forwardType_cases type with hsame | hreverse
      · rw [hsame]
        exact (hnone e he).1
      · rw [hreverse]
        exact (hnone e he).2
    rw [edgeSchema_of_space h, hget]

/-- **The last declaration wins.**  A configuration has a catalog unless some entry, be it
replaced later or not, declares an edge type that is not a forward one, an index on a type that it
does not declare itself, or two indexes with one number.  If it has none, the error is that of the
first offence, where the edge types of an entry come before its indexes.  Otherwise the catalog
answers about a space what the last entry for it says, and knows no other spaces. -/
theorem last_declaration_wins (config : Config) :
    ((∃ e, ofConfig config = .error e) ↔
      ∃ d ∈ config.spaces, (∃ e ∈ d.edges, e.type.toInt ≤ 0) ∨
        (∃ i ∈ d.indexes, ∀ e ∈ d.edges, e.type ≠ i.edgeType) ∨
        ¬(d.indexes.map (·.id)).Nodup) ∧
    (∀ e, ofConfig config = .error e ↔
      (config.spaces.flatMap SpaceDeclaration.offences).head? = some e) ∧
    ∀ c, ofConfig config = .ok c →
      (∀ front d back, config.spaces = front ++ d :: back → (∀ d' ∈ back, d'.id ≠ d.id) →
        c.Shows d) ∧
      ∀ space, (∀ d ∈ config.spaces, d.id ≠ space) → c.space space = .error .unknownSpace := by
  refine ⟨?_, fun e => ?_, fun c hc => ?_⟩
  · simp only [← SpaceDeclaration.offences_ne_nil_iff, ofConfig_eq, unlessWrong_eq_error_iff]
    rw [← Option.isSome_iff_exists, List.isSome_head?]
    simp
  · rw [ofConfig_eq, unlessWrong_eq_error_iff]
  · rw [ofConfig_eq, unlessWrong_eq_ok_iff] at hc
    obtain ⟨hnone, rfl⟩ := hc
    constructor
    · -- an earlier entry for the space is inserted too, but the last one is put over it
      intro front d back hspaces hlast
      have hd : d.offences = [] := List.flatMap_eq_nil_iff.1 hnone d (by rw [hspaces]; simp)
      refine shows_of_space (space_eq_ok_iff.2 ?_) (SpaceDeclaration.offences_eq_nil_iff.1 hd).1
      rw [hspaces]
      exact OrderedMap.get?_insertEach_of_last hlast _
    · intro space hother
      rw [Catalog.space, OrderedMap.get?_insertEach_of_ne hother]
      rfl

/-- An entry offends even if a later one takes its place. -/
example : ofConfig ⟨{}, [⟨1, 8, [⟨-3, []⟩], []⟩, ⟨1, 8, [], []⟩]⟩ = .error .notForward := by rfl

end Catalog

end EdgeDeletion
