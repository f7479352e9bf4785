/-
Keys that the inspector prints and tells.

The key of an edge is printed in hexadecimal, and what was printed can be given back, with the end
of its line, to learn the family of the key and its components.

* `settings?_value`, `settings?_flag`, `settings?_operand` — what an argument adds to the settings;
* `parse_edgeKeyArgs`, `parse_classifyArgs` — both command lines are understood;
* `family_eq_deferredDeletion_iff`, `classify_record` — the families of keys are told apart;
* `edge_keys_classified` — what is told of the keys that are printed.
-/
import EdgeDeletion.Inspect.Outcome
import EdgeDeletion.Proofs.EdgeKeyGrammar
import EdgeDeletion.Proofs.EdgeTexts
import EdgeDeletion.Proofs.ReadBack

namespace EdgeDeletion.Inspect

/-! ### Command lines -/

/-- The name of a form. -/
def Format.name : Format → String
  | .text => "text"
  | .json => "json"

/-- The arguments that tell an edge, with its ids in hexadecimal. -/
def edgeArgs (vidLen : Nat) (part : PartId) (e : Edge) (rest : List String) : List String :=
  "--vid-len" :: toString vidLen :: "--part" :: toString part.toNat :: "--src" ::
    Hex.encode e.src :: "--type" :: toString e.type.toInt :: "--rank" :: toString e.rank.toInt ::
    "--dst" :: Hex.encode e.dst :: "--hex-ids" :: rest

/-- The arguments that ask for the key of an edge, or for its prefix. -/
def edgeKeyArgs (format : Format) (vidLen : Nat) (part : PartId) (e : Edge) (prefixOnly : Bool) :
    List String :=
  "--format" :: format.name :: "edge-key" ::
    edgeArgs vidLen part e (if prefixOnly then ["--prefix"] else [])

/-- The arguments that ask for the family of a key. -/
def classifyArgs (format : Format) (vidLen : Nat) (key : String) : List String :=
  ["--format", format.name, "classify", "--vid-len", toString vidLen, key]

theorem argument_of_plain {s : String} (h : s.toList.head? ≠ some '-') :
    Argument.of s = .plain s := by
  rw [Argument.of]
  split <;> simp_all

theorem argument_of_natural (n : Nat) : Argument.of (toString n) = .plain (toString n) := by
  obtain ⟨c, cs, hcons, hdigit⟩ := Text.exists_digit_cons n
  refine argument_of_plain fun hhyphen => ?_
  rw [hcons, List.head?_cons, Option.some.injEq] at hhyphen
  rw [hhyphen] at hdigit
  exact absurd hdigit (by decide)

theorem hexDigit_ne_hyphen : ∀ n : Fin 16, Text.hexDigit n.val ≠ '-' := by decide +kernel

theorem argument_of_line (bs : Bytes) (back : String) (hback : back.toList.head? ≠ some '-') :
    Argument.of (Hex.encode bs ++ back) = .plain (Hex.encode bs ++ back) := by
  refine argument_of_plain fun hhyphen => ?_
  rw [String.toList_append, List.head?_append] at hhyphen
  cases hhead : (Hex.encode bs).toList.head? with
  | none => exact hback (by simpa [hhead] using hhyphen)
  | some c =>
    obtain ⟨n, rfl⟩ := Hex.mem_encode (List.mem_of_mem_head? hhead)
    rw [hhead, Option.some_or, Option.some.injEq] at hhyphen
    exact hexDigit_ne_hyphen n hhyphen

theorem argument_of_hex (bs : Bytes) : Argument.of (Hex.encode bs) = .plain (Hex.encode bs) := by
  have hline := argument_of_line bs "" (by simp)
  rwa [String.append_empty] at hline

theorem bounded?_toString {low high i : Int} (h : low ≤ i ∧ i ≤ high) :
    bounded? low high (toString i) = some i := by
  rw [bounded?, Text.integer?_toString]
  simp [h]

/-- An option that is not set yet is set to the value that was read. -/
theorem once_of_read {α : Type} {old new : Option α} {v : α} (put : Option α → Settings)
    (hold : old = none) (hnew : new = some v) : once old new put = some (put (some v)) := by
  rw [hold, hnew]
  rfl

theorem set?_vidLen {s : Settings} {vidLen : Nat} (h : vidLen ≤ 0xffff) (hnone : s.vidLen = none) :
    s.set? "vid-len" (toString vidLen) = some { s with vidLen := some vidLen } := by
  have hlt : vidLen < UInt64.size := Nat.lt_of_le_of_lt h (by decide)
  have hread : (Text.natural? (toString vidLen)).filter (· < UInt64.size) = some vidLen := by
    rw [Text.natural?_toString, Option.filter_some, if_pos (decide_eq_true hlt)]
  exact once_of_read (fun v => { s with vidLen := v }) hnone hread

theorem set?_part {s : Settings} (part : PartId) (hnone : s.part = none) :
    s.set? "part" (toString part.toNat) = some { s with part := some part } := by
  have hlt := part.toNat_lt
  have hbounded : bounded? 0 0xffffffff (toString part.toNat) = some (part.toNat : Int) :=
    bounded?_toString (i := (part.toNat : Int)) (by omega)
  have hread : (bounded? 0 0xffffffff (toString part.toNat)).map
      (fun i => UInt32.ofNat i.toNat) = some part := by
    rw [hbounded, Option.map_some, Int.toNat_natCast, UInt32.ofNat_toNat]
  exact once_of_read (fun v => { s with part := v }) hnone hread

theorem set?_type {s : Settings} (type : EdgeType) (hnone : s.type = none) :
    s.set? "type" (toString type.toInt) = some { s with type := some type } := by
  have hlt := type.toInt_lt
  have hbounded : bounded? (-0x80000000) 0x7fffffff (toString type.toInt) = some type.toInt :=
    bounded?_toString ⟨type.le_toInt, by omega⟩
  have hread : (bounded? (-0x80000000) 0x7fffffff (toString type.toInt)).map Int32.ofInt
      = some type := by
    rw [hbounded, Option.map_some, Int32.ofInt_toInt]
  exact once_of_read (fun v => { s with type := v }) hnone hread

theorem set?_rank {s : Settings} (rank : Rank) (hnone : s.rank = none) :
    s.set? "rank" (toString rank.toInt) = some { s with rank := some rank } := by
  have hlt := rank.toInt_lt
  have hbounded : bounded? (-0x8000000000000000) 0x7fffffffffffffff (toString rank.toInt)
      = some rank.toInt := bounded?_toString ⟨rank.le_toInt, by omega⟩
  have hread : (bounded? (-0x8000000000000000) 0x7fffffffffffffff (toString rank.toInt)).map
      Int64.ofInt = some rank := by
    rw [hbounded, Option.map_some, Int64.ofInt_toInt]
  exact once_of_read (fun v => { s with rank := v }) hnone hread

/-- The name of an option, without a value behind an equals sign. -/
theorem settings?_long {verb : Verb} {arg name : String} (args : List String) (s : Settings)
    (harg : Argument.of arg = .long name none) (hname : name ≠ "help") :
    verb.settings? (arg :: args) s =
      match verb.options.lookup name, args with
      | none, _ => none
      | some .nothing, args => do verb.settings? args (← s.set? name "")
      | some _, [] => none
      | some taking, value :: args =>
        if taking = .anyValue ∨ (Argument.of value).isPlain then do
          verb.settings? args (← s.set? name value)
        else none := by
  rw [Verb.settings?.eq_def]
  simp only [harg]
  split
  case h_5 heq =>
    obtain ⟨rfl, rfl⟩ := Argument.long.inj heq
    rcases verb.options.lookup _ with _ | _ | _ | _ <;> cases args <;> rfl
  case h_4 heq => exact absurd (Argument.long.inj heq).1 hname
  all_goals contradiction

theorem settings?_value {verb : Verb} {arg value : String} (name : String) {taking : Taking}
    {args : List String} {s s' : Settings} (harg : Argument.of arg = .long name none)
    (hname : name ≠ "help") (hoption : verb.options.lookup name = some taking)
    (htaking : taking = .anyValue ∨ taking = .plainValue ∧ Argument.of value = .plain value)
    (hset : s.set? name value = some s') :
    verb.settings? (arg :: value :: args) s = verb.settings? args s' := by
  rw [settings?_long _ s harg hname, hoption]
  rcases htaking with rfl | ⟨rfl, hplain⟩
  · show (if _ then _ else _) = _
    rw [if_pos (.inl rfl), hset]
    rfl
  · show (if _ then _ else _) = _
    rw [if_pos (.inr (by rw [hplain]; rfl)), hset]
    rfl

theorem settings?_flag {verb : Verb} {arg : String} (name : String) {args : List String}
    {s s' : Settings} (harg : Argument.of arg = .long name none) (hname : name ≠ "help")
    (hoption : verb.options.lookup name = some .nothing) (hset : s.set? name "" = some s') :
    verb.settings? (arg :: args) s = verb.settings? args s' := by
  rw [settings?_long args s harg hname, hoption]
  show (do verb.settings? args (← s.set? name "")) = _
  rw [hset]
  rfl

theorem settings?_operand {verb : Verb} {arg : String} {args : List String} {s s' : Settings}
    (harg : Argument.of arg = .plain arg) (hset : verb.operand? s arg = some s') :
    verb.settings? (arg :: args) s = verb.settings? args s' := by
  rw [Verb.settings?.eq_def]
  simp only [harg]
  rw [hset]
  rfl

/-- A form and the name of a command, before its arguments. -/
theorem parse_command {format : Format} {name : String} {verb : Verb} {args : List String}
    {s : Settings} {c : Command} (hverb : Verb.ofName? name = some verb)
    (hname : Argument.of name = .plain name) (hsettings : verb.settings? args {} = some (some s))
    (hformat : s.format = none) (hcommand : verb.command? s = some c) :
    Invocation.parse ("--format" :: format.name :: name :: args) = some (.run format c) := by
  have hoption : Argument.of "--format" = .long "format" none := rfl
  have hform : Argument.of format.name = .plain format.name ∧
      Settings.set? {} "format" format.name = some { format := some format } := by
    cases format <;> exact ⟨rfl, rfl⟩
  rw [Invocation.parse, Invocation.after?, hoption]
  simp only [hform.1]
  rw [if_pos (by rfl), hform.2]
  show Invocation.after? { format := some format } (name :: args) = _
  rw [Invocation.after?.eq_def]
  simp only [hname]
  rw [hverb]
  show verb.invocation? { format := some format } args = _
  rw [Verb.invocation?, hsettings]
  show (do
    let c ← verb.command? s
    pure (Invocation.run _ c)) = some (Invocation.run format c)
  rw [hcommand, hformat]
  rfl

theorem parse_classifyArgs {format : Format} {vidLen : Nat} {key : String} (h : vidLen ≤ 0xffff)
    (hkey : Argument.of key = .plain key) :
    Invocation.parse (classifyArgs format vidLen key)
      = some (.run format (.classify vidLen key)) := by
  have hsettings : Verb.classify.settings? ["--vid-len", toString vidLen, key] {}
      = some (some { vidLen := some vidLen, operand := some key }) := by
    rw [settings?_value "vid-len" rfl (by decide) rfl (.inr ⟨rfl, argument_of_natural _⟩)
        (set?_vidLen h rfl), settings?_operand hkey rfl]
    rfl
  exact parse_command rfl rfl hsettings rfl rfl

theorem settings?_edgeArgs {vidLen : Nat} (part : PartId) (e : Edge) (rest : List String)
    (h : vidLen ≤ 0xffff) :
    Verb.edgeKey.settings? (edgeArgs vidLen part e rest) {} = Verb.edgeKey.settings? rest
      { vidLen := some vidLen, part := some part, src := some (Hex.encode e.src)
        type := some e.type, rank := some e.rank, dst := some (Hex.encode e.dst)
        hexIds := some () } := by
  rw [edgeArgs,
    settings?_value "vid-len" rfl (by decide) rfl (.inr ⟨rfl, argument_of_natural _⟩)
      (set?_vidLen h rfl),
    settings?_value "part" rfl (by decide) rfl (.inr ⟨rfl, argument_of_natural _⟩)
      (set?_part part rfl),
    settings?_value "src" rfl (by decide) rfl (.inr ⟨rfl, argument_of_hex _⟩) rfl,
    settings?_value "type" rfl (by decide) rfl (.inl rfl) (set?_type e.type rfl),
    settings?_value "rank" rfl (by decide) rfl (.inl rfl) (set?_rank e.rank rfl),
    settings?_value "dst" rfl (by decide) rfl (.inr ⟨rfl, argument_of_hex _⟩) rfl,
    settings?_flag "hex-ids" rfl (by decide) rfl rfl]

theorem parse_edgeKeyArgs {format : Format} {vidLen : Nat} (part : PartId) (e : Edge)
    (prefixOnly : Bool) (h : vidLen ≤ 0xffff) :
    Invocation.parse (edgeKeyArgs format vidLen part e prefixOnly)
      = some (.run format (.edgeKey vidLen part (Hex.encode e.src) e.type e.rank
          (Hex.encode e.dst) true prefixOnly)) := by
  rw [edgeKeyArgs]
  cases prefixOnly with
  | false => exact parse_command rfl rfl ((settings?_edgeArgs part e [] h).trans rfl) rfl rfl
  | true =>
    have hflag := (settings?_edgeArgs part e ["--prefix"] h).trans
      (settings?_flag "prefix" rfl (by decide) rfl rfl)
    exact parse_command rfl rfl (hflag.trans rfl) rfl rfl

/-! ### What is printed -/

theorem hex_encode (bs : Bytes) : hex (Hex.encode bs) = .ok bs := by
  rw [hex, Hex.decode_encode]
  rfl

theorem text_key (key : Bytes) :
    (Report.key key).text = Hex.encode key ++ String.ofList ['\n'] := by
  simp [Report.text, line, String.join]

/-- The texts of a key that are printed: its digits in a record, or a line of them. -/
def Printed (key : Bytes) (text : String) : Prop :=
  text = Hex.encode key ∨ text = (Report.key key).text

theorem Printed.argument {key : Bytes} {text : String} (h : Printed key text) :
    Argument.of text = .plain text := by
  rcases h with rfl | rfl
  · exact argument_of_hex key
  · rw [text_key]
    exact argument_of_line key _ (by decide)

theorem Printed.hex {key : Bytes} {text : String} (h : Printed key text) :
    hex (Text.trim text) = .ok key := by
  have htrim : Text.trim text = Hex.encode key := by
    rcases h with rfl | rfl
    · have hdigits := Hex.trim_encode key [] nofun
      simpa using hdigits
    · rw [text_key]
      exact Hex.trim_encode key _ fun c hc => List.mem_singleton.1 hc ▸ rfl
  rw [htrim, hex_encode]

section Runs

variable {m : Type → Type} [Monad m] [LawfulMonad m] (read : String → m (Except String String))
  (format : Format) {vidLen : Nat}

theorem respond_edgeKey (part : PartId) {e : Edge} (prefixOnly : Bool) (h : vidLen ≤ 0xffff)
    (he : e.hasWidth vidLen = true) :
    respond read (edgeKeyArgs format vidLen part e prefixOnly) = pure (outcome format (.ok (.key
      (if prefixOnly then Key.edgePrefix vidLen part e else Key.record vidLen part e)))) := by
  have hreport : (Command.edgeKey vidLen part (Hex.encode e.src) e.type e.rank
      (Hex.encode e.dst) true prefixOnly).report read = pure (.ok (.key
        (if prefixOnly then Key.edgePrefix vidLen part e else Key.record vidLen part e))) := by
    simp only [Command.report, vertexId, if_true, hex_encode]
    show pure ((Inspect.edgeKey vidLen part e prefixOnly).map Report.key) = _
    rw [Inspect.edgeKey, if_pos he]
    rfl
  rw [respond, parse_edgeKeyArgs part e prefixOnly h]
  simp only [hreport, pure_bind]

theorem respond_classify {key : Bytes} {text : String} (h : vidLen ≤ 0xffff)
    (htext : Printed key text) : respond read (classifyArgs format vidLen text)
      = pure (outcome format (.ok (.classification (classify vidLen key)))) := by
  have hreport : (Command.classify vidLen text).report read
      = pure (.ok (.classification (classify vidLen key))) := by
    simp only [Command.report, htext.hex]
    rfl
  rw [respond, parse_classifyArgs h htext.argument]
  simp only [hreport, pure_bind]

end Runs

/-! ### What is told of a key -/

variable {vidLen : Nat} {part : PartId} {e : Edge} {key : Bytes}

theorem classify_record (he : e.hasWidth vidLen = true) :
    classify vidLen (Key.record vidLen part e) = ⟨.edgeRecord, some (part, e)⟩ := by
  obtain ⟨hsrc, hdst⟩ := Edge.hasWidth_iff.1 he
  have hsplits : Key.Splits vidLen (Key.record vidLen part e) part e [Key.recordByte] :=
    ⟨hsrc, hdst, rfl, List.cons_ne_nil _ _⟩
  rw [classify, family, Key.kind_record, Key.parse?_of_splits hsplits]
  rfl

/-- The key of a deferred removal is not one of an edge. -/
theorem not_isEdgeKey_of_isDeferral (vidLen : Nat) (h : Key.isDeferral key = true) :
    ¬Key.isEdgeKey vidLen key = true := by
  intro hkey
  simp only [Key.isDeferral, Key.isEdgeKey, Bool.and_eq_true, beq_iff_eq] at h hkey
  have htags : some Key.operationTag = some Key.edgeTag := h.1.2.symm.trans hkey.2
  exact absurd htags (by decide)

theorem family_eq_deferredDeletion_iff :
    family vidLen key = .deferredDeletion ↔ Key.isDeferral key = true := by
  constructor
  · intro h
    rw [family] at h
    cases hkind : Key.kind vidLen key with
    | lock | record => simp [hkind] at h
    | other =>
      by_contra hdeferral
      simp [hkind, hdeferral] at h
  · intro h
    rw [family, Key.kind_of_not_isEdgeKey (not_isEdgeKey_of_isDeferral _ h)]
    simp only [h, if_true]

/-- A bare prefix is too short for the key of an edge. -/
theorem classify_edgePrefix :
    classify vidLen (Key.edgePrefix vidLen part e) = ⟨.other, none⟩ := by
  have hshort : ¬Key.isEdgeKey vidLen (Key.edgePrefix vidLen part e) = true := by
    have hiff := Key.isEdgeKey_edgePrefix_append vidLen part e []
    rw [List.append_nil] at hiff
    simp [hiff]
  have hdeferral : ¬Key.isDeferral (Key.edgePrefix vidLen part e) = true := by
    intro h
    have hhead := Key.head?_of_edgePrefix (List.prefix_refl (Key.edgePrefix vidLen part e))
    simp only [Key.isDeferral, Bool.and_eq_true, beq_iff_eq, hhead] at h
    exact absurd h.1.2 (by decide)
  rw [classify, family, Key.kind_of_not_isEdgeKey hshort, Key.parse?_of_not_isEdgeKey hshort]
  simp [hdeferral]

/-- **Keys that are printed are told again.**  The key of an edge with ids of the right width is
printed, and told to be the record of the edge, with all its components; its prefix is told to be
nothing known.  The ids are told as texts that no other ids have.  Of all byte strings exactly the
keys of deferred removals are told to be such, and they are told to have no components. -/
theorem edge_keys_classified {m : Type → Type} [Monad m] [LawfulMonad m]
    (read : String → m (Except String String)) (format : Format) {vidLen : Nat}
    (h : vidLen ≤ 0xffff) :
    (∀ (part : PartId) (e : Edge), e.hasWidth vidLen = true → ∃ key bare,
      respond read (edgeKeyArgs format vidLen part e false)
        = pure (outcome format (.ok (.key key))) ∧
      respond read (edgeKeyArgs format vidLen part e true)
        = pure (outcome format (.ok (.key bare))) ∧
      ∀ format' text,
        (Printed key text → respond read (classifyArgs format' vidLen text)
          = pure (outcome format' (.ok (.classification ⟨.edgeRecord, some (part, e)⟩)))) ∧
        (Printed bare text → respond read (classifyArgs format' vidLen text)
          = pure (outcome format' (.ok (.classification ⟨.other, none⟩))))) ∧
    (∀ (part : PartId) (e : Edge),
      (Report.classification ⟨.edgeRecord, some (part, e)⟩).text = line ["kind: edge-record"] ++
        line ["  part=", toString part.toNat, " src=", Text.escaped e.src, " type=",
          toString e.type.toInt, " rank=", toString e.rank.toInt, " dst=", Text.escaped e.dst] ∧
      (Report.classification ⟨.edgeRecord, some (part, e)⟩).json = .record
        [("kind", .string "edge-record"), ("part", .number part.toNat),
          ("src", .string (Text.escaped e.src)), ("edge_type", .number e.type.toInt),
          ("rank", .number e.rank.toInt), ("dst", .string (Text.escaped e.dst))] ∧
      ∀ bs, (Text.escaped bs = Text.escaped e.src → bs = e.src) ∧
        (Text.escaped bs = Text.escaped e.dst → bs = e.dst)) ∧
    ∀ key text, Printed key text → ∃ c,
      respond read (classifyArgs format vidLen text)
        = pure (outcome format (.ok (.classification c))) ∧
      (c.family = .deferredDeletion ↔ Key.isDeferral key = true) ∧
      (c.family = .deferredDeletion → c.components = none) := by
  refine ⟨fun part e he => ?_, fun part e => ⟨rfl, rfl, fun bs => ⟨Text.escaped_inj,
    Text.escaped_inj⟩⟩, fun key text htext => ?_⟩
  · refine ⟨_, _, respond_edgeKey read format part false h he,
      respond_edgeKey read format part true h he, fun format' text => ⟨fun htext => ?_,
        fun htext => ?_⟩⟩
    · rw [respond_classify read format' h htext]
      simp only [Bool.false_eq_true, if_false, classify_record he]
    · rw [respond_classify read format' h htext]
      simp only [if_true, classify_edgePrefix]
  · refine ⟨_, respond_classify read format h htext, family_eq_deferredDeletion_iff,
      fun hfamily => ?_⟩
    have hkey := not_isEdgeKey_of_isDeferral vidLen
      (family_eq_deferredDeletion_iff.1 hfamily)
    rw [classify, Key.parse?_of_not_isEdgeKey hkey]
    rfl

/-- An edge between ids with a quote, a backslash and bytes that are no text. -/
def quotedEdge : Edge := ⟨[0x22, 0x5c], -5, -7, [0xff, 0x00]⟩

theorem edge_keys_classified_quoted :
    2 ≤ 0xffff ∧ quotedEdge.hasWidth 2 = true ∧ ∃ key,
      respond (m := Id) (fun _ => .error "") (edgeKeyArgs .text 2 9 quotedEdge false)
        = outcome .text (.ok (.key key)) ∧
      respond (m := Id) (fun _ => .error "") (classifyArgs .json 2 (Hex.encode key))
        = outcome .json (.ok (.classification ⟨.edgeRecord, some (9, quotedEdge)⟩)) := by
  obtain ⟨hedges, -⟩ := edge_keys_classified (m := Id) (fun _ => .error "") .text
    (show 2 ≤ 0xffff by decide)
  have hwidth : quotedEdge.hasWidth 2 = true := by decide
  obtain ⟨key, bare, hkey, -, htold⟩ := hedges 9 quotedEdge hwidth
  exact ⟨by decide, hwidth, key, hkey, (htold .json _).1 (.inl rfl)⟩

end EdgeDeletion.Inspect
