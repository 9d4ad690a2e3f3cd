import Mathlib
import CMinus.Exchange.Encode
import CMinus.Proofs.Tree.Order

/-!
# Programs survive the exchange

`Forest.toDocument` writes a program as a document and decoding reads it back.
A document is a table, and the entries of a table have no order, so the
statement is about every document that says the same as the one written:
`Toml.Value.Same` relates two values that differ at most in the order in which
the entries of their tables are listed.

Reading is followed down the schema, one lemma for each part: a record is found
field by field (`Toml.Value.fields?_same`), a kind by its word and its record
(`Kind.ofValue?_same`), a node by its three entries in any order
(`NodeFields.ofEntries?_perm`), and a chain by induction on the tree
(`Outline.ofValues?_same`).  Written trees have three slots at every node, so
the limit on slots is never met (`Forest.toForest_outline`).

## Main results

* `Forest.roundTrips`: decoding gives back the tree that was written, from its
  document and from every text of it, and different trees have documents that
  say different things.
-/

namespace CMinus

namespace Toml.Value

mutual

/-- Two values that say the same: they differ at most in the order in which the
entries of a table are written. -/
inductive Same : Value → Value → Prop
  | string (text : String) : Same (.string text) (.string text)
  | integer (n : Int64) : Same (.integer n) (.integer n)
  | boolean (b : Bool) : Same (.boolean b) (.boolean b)
  | float (literal : String) : Same (.float literal) (.float literal)
  | moment (literal : String) : Same (.moment literal) (.moment literal)
  | array {xs ys : List Value} (h : SameItems xs ys) : Same (.array xs) (.array ys)
  | table {es es' fs : List (String × Value)} (hperm : es.Perm es') (h : SameEntries es' fs) :
      Same (.table es) (.table fs)

/-- Item by item the same. -/
inductive SameItems : List Value → List Value → Prop
  | nil : SameItems [] []
  | cons {x y : Value} {xs ys : List Value} (h : Same x y) (hs : SameItems xs ys) :
      SameItems (x :: xs) (y :: ys)

/-- Entry by entry the same. -/
inductive SameEntries : List (String × Value) → List (String × Value) → Prop
  | nil : SameEntries [] []
  | cons {x y : Value} {xs ys : List (String × Value)} (key : String) (h : Same x y)
      (hs : SameEntries xs ys) : SameEntries ((key, x) :: xs) ((key, y) :: ys)

end

mutual

theorem Same.refl : (v : Value) → Same v v
  | .string text => .string text
  | .integer n => .integer n
  | .boolean b => .boolean b
  | .float literal => .float literal
  | .moment literal => .moment literal
  | .array items => .array (SameItems.refl items)
  | .table entries => .table (.refl entries) (SameEntries.refl entries)

theorem SameItems.refl : (vs : List Value) → SameItems vs vs
  | [] => .nil
  | v :: vs => .cons (Same.refl v) (SameItems.refl vs)

theorem SameEntries.refl : (es : List (String × Value)) → SameEntries es es
  | [] => .nil
  | (key, v) :: es => .cons key (Same.refl v) (SameEntries.refl es)

end

/-- Every line and every size is written as an integer that reads back. -/
theorem word?_ofWord (n : UInt32) : (ofWord n).word? = some n := by
  have hlt := n.toNat_lt
  have hint : (Int64.ofNat n.toNat).toInt = n.toNat := Int64.toInt_ofNat_of_lt (by omega)
  simp only [ofWord, word?, integer?, hint, bind, Option.bind_some]
  rw [if_pos ⟨Int.natCast_nonneg _, Int.ofNat_lt.mpr n.toNat_lt_size⟩]
  simp

theorem same_string {v : Value} {text : String} (h : v.Same (.string text)) :
    v = .string text := by
  cases h
  rfl

theorem same_ofWord {v : Value} {n : UInt32} (h : v.Same (.ofWord n)) : v.word? = some n := by
  cases h
  exact word?_ofWord n

theorem SameItems.cons_inv {xs ys : List Value} {y : Value} (h : SameItems xs (y :: ys)) :
    ∃ x xs', xs = x :: xs' ∧ x.Same y ∧ SameItems xs' ys := by
  cases h with
  | cons h hs => exact ⟨_, _, rfl, h, hs⟩

theorem SameEntries.cons_inv {es fs : List (String × Value)} {key : String} {v : Value}
    (h : SameEntries es ((key, v) :: fs)) :
    ∃ w es', es = (key, w) :: es' ∧ w.Same v ∧ SameEntries es' fs := by
  cases h with
  | cons _ h hs => exact ⟨_, _, rfl, h, hs⟩

theorem SameEntries.nil_inv {es : List (String × Value)} (h : SameEntries es []) : es = [] := by
  cases h
  rfl

/-- A list is the same as a list only. -/
theorem same_array {v : Value} {ys : List Value} (h : v.Same (.array ys)) :
    ∃ xs, v = .array xs ∧ SameItems xs ys := by
  cases h with
  | array h => exact ⟨_, rfl, h⟩

/-- A table is the same as a table only, and its entries can be listed in one
order. -/
theorem same_table {v : Value} {fs : List (String × Value)} (h : v.Same (.table fs)) :
    ∃ es es', v = .table es ∧ es.Perm es' ∧ SameEntries es' fs := by
  cases h with
  | table hperm h => exact ⟨_, _, rfl, hperm, h⟩

/-- A word with attributes is a table with one key in any case. -/
theorem same_tagged {v : Value} {tag : String} {attributes : List (String × Value)}
    (h : v.Same (.tagged tag attributes)) :
    ∃ es es', v = .table [(tag, .table es)] ∧ es.Perm es' ∧ SameEntries es' attributes := by
  obtain ⟨outer, outer', rfl, hperm, hentries⟩ := same_table h
  obtain ⟨content, none', rfl, hcontent, hnone⟩ := hentries.cons_inv
  obtain rfl := hnone.nil_inv
  obtain ⟨es, es', rfl, hattributes, hsame⟩ := same_table hcontent
  rw [List.perm_singleton.mp hperm]
  exact ⟨es, es', rfl, hattributes, hsame⟩

theorem keys_of_same {es fs : List (String × Value)} (h : SameEntries es fs) :
    es.map Prod.fst = fs.map Prod.fst := by
  induction fs generalizing es with
  | nil => rw [h.nil_inv]
  | cons f fs ih =>
      obtain ⟨w, es', rfl, _, hs⟩ := h.cons_inv
      rw [List.map_cons, List.map_cons, ih hs]

/-- In a list with distinct keys, an entry is found under its key. -/
theorem lookup_of_mem {es : List (String × Value)} (hnodup : (es.map Prod.fst).Nodup)
    {e : String × Value} (hmem : e ∈ es) : es.lookup e.1 = some e.2 := by
  induction es with
  | nil => simp at hmem
  | cons d es ih =>
      rw [List.map_cons, List.nodup_cons] at hnodup
      rcases List.mem_cons.mp hmem with rfl | hmem
      · simp [List.lookup]
      · have hne : e.1 ≠ d.1 := by
          intro heq
          exact hnodup.1 (heq ▸ List.mem_map_of_mem hmem)
        rw [List.lookup_cons, beq_false_of_ne hne]
        exact ih hnodup.2 hmem

/-- The fields of a record are found in whatever order they are written. -/
theorem fields?_table {es es' : List (String × Value)} (hperm : es.Perm es')
    (hnodup : (es'.map Prod.fst).Nodup) :
    fields? (es'.map Prod.fst) (.table es) = some (es'.map Prod.snd) := by
  have hkeys : (es.map Prod.fst).Nodup := (hperm.map Prod.fst).nodup_iff.mpr hnodup
  have hfound : ∀ fs : List (String × Value), (∀ f ∈ fs, f ∈ es) →
      (fs.map Prod.fst).mapM (es.lookup ·) = some (fs.map Prod.snd) := by
    intro fs hfs
    induction fs with
    | nil => rfl
    | cons f fs ih =>
        have hf := lookup_of_mem hkeys (hfs f List.mem_cons_self)
        have hrest := ih fun g hg => hfs g (List.mem_cons_of_mem f hg)
        simp only [List.map_cons, List.mapM_cons, hf, hrest]
        rfl
  rw [fields?, if_pos (by rw [List.length_map, hperm.length_eq])]
  exact hfound es' fun f hf => hperm.mem_iff.mpr hf

/-- The attributes of a record, as they are written. -/
theorem fields?_same {es es' attributes : List (String × Value)} (hperm : es.Perm es')
    (hsame : SameEntries es' attributes) (hnodup : (attributes.map Prod.fst).Nodup) :
    fields? (attributes.map Prod.fst) (.table es) = some (es'.map Prod.snd) := by
  rw [← keys_of_same hsame] at hnodup ⊢
  exact fields?_table hperm hnodup

end Toml.Value

open Toml

theorem Spec.ofValue?_same {v : Value} {spec : Spec} (h : v.Same spec.toValue) :
    Spec.ofValue? v = some spec := by
  cases spec <;> cases h <;> rfl

theorem BinOp.ofValue?_sign (o : BinOp) : BinOp.ofValue? (.string o.sign) = some o := by
  cases o <;> rfl

namespace Kind

theorem named_same {make : String → Spec → Kind} {tag name : String} {spec : Spec}
    {es es' : List (String × Value)} (hperm : es.Perm es')
    (hsame : Value.SameEntries es' (spec.declared name)) :
    named make (.tagged tag (.table es)) = some (make name spec) := by
  have hfields := Value.fields?_same hperm hsame (by simp [Spec.declared])
  obtain ⟨_, _, rfl, hname, hsame⟩ := hsame.cons_inv
  obtain ⟨_, _, rfl, hspec, hsame⟩ := hsame.cons_inv
  obtain rfl := hsame.nil_inv
  rw [Value.same_string hname] at hfields
  simp only [Spec.declared, List.map_cons, List.map_nil] at hfields
  simp [named, Choice.fields?, hfields, Value.string?, Spec.ofValue?_same hspec]

theorem single_same {α : Type} {key tag : String} {read : Value → Option α} {make : α → Kind}
    {x : α} {v : Value} (hread : ∀ {w : Value}, w.Same v → read w = some x)
    {es es' : List (String × Value)} (hperm : es.Perm es')
    (hsame : Value.SameEntries es' [(key, v)]) :
    single key read make (.tagged tag (.table es)) = some (make x) := by
  have hfields := Value.fields?_same hperm hsame (by simp)
  obtain ⟨_, _, rfl, hv, hsame⟩ := hsame.cons_inv
  obtain rfl := hsame.nil_inv
  simp only [List.map_cons, List.map_nil] at hfields
  simp [single, Choice.fields?, hfields, hread hv]

theorem sized_same {tag name : String} {spec : Spec} {size : UInt32}
    {es es' : List (String × Value)} (hperm : es.Perm es')
    (hsame : Value.SameEntries es' (spec.declared name ++ [("size", .ofWord size)])) :
    sized (.tagged tag (.table es)) = some (.arrayDecl name spec size) := by
  have hfields := Value.fields?_same hperm hsame (by simp [Spec.declared])
  obtain ⟨_, _, rfl, hname, hsame⟩ := hsame.cons_inv
  obtain ⟨_, _, rfl, hspec, hsame⟩ := hsame.cons_inv
  obtain ⟨_, _, rfl, hsize, hsame⟩ := hsame.cons_inv
  obtain rfl := hsame.nil_inv
  rw [Value.same_string hname] at hfields
  simp only [Spec.declared, List.cons_append, List.nil_append, List.map_cons,
    List.map_nil] at hfields
  simp [sized, Choice.fields?, hfields, Value.string?, Spec.ofValue?_same hspec,
    Value.same_ofWord hsize]

/-- A kind is read back, in whatever order its attributes are written. -/
theorem ofValue?_same {v : Value} {k : Kind} (h : v.Same k.toValue) :
    ofValue? v = some k := by
  have hstring : ∀ {w : Value} {text : String}, w.Same (.string text) →
      w.string? = some text := by
    intro w text hw
    rw [Value.same_string hw]
    rfl
  cases k with
  | compound | ifThen | ifElse | whileDo | returnValue | returnVoid | assign =>
      rw [Value.same_string h]
      rfl
  | varDecl name spec | funDecl name spec | param name spec | arrayParam name spec =>
      obtain ⟨es, es', rfl, hperm, hsame⟩ := Value.same_tagged h
      exact named_same hperm hsame
  | arrayDecl name spec size =>
      obtain ⟨es, es', rfl, hperm, hsame⟩ := Value.same_tagged h
      exact sized_same hperm hsame
  | op o =>
      obtain ⟨es, es', rfl, hperm, hsame⟩ := Value.same_tagged h
      refine single_same (fun hw => ?_) hperm hsame
      rw [Value.same_string hw]
      exact BinOp.ofValue?_sign o
  | const value =>
      obtain ⟨es, es', rfl, hperm, hsame⟩ := Value.same_tagged h
      refine single_same (fun hw => ?_) hperm hsame
      cases hw
      rfl
  | var name | call name =>
      obtain ⟨es, es', rfl, hperm, hsame⟩ := Value.same_tagged h
      exact single_same hstring hperm hsame

end Kind

/-- One field of a node, read from its entry. -/
inductive NodeField where
  | line (n : UInt32)
  | kind (k : Kind)
  | slots (s : OutlineSlots)

/-- The field that an entry stands for. -/
def NodeField.ofEntry? (e : String × Value) : Option NodeField :=
  match e.1 with
  | "line" => e.2.word?.map .line
  | "kind" => (Kind.ofValue? e.2).map .kind
  | "children" => (OutlineSlots.ofValue? e.2).map .slots
  | _ => none

namespace NodeFields

/-- One more field, which must not be there yet. -/
def set? (fields : NodeFields) : NodeField → Option NodeFields
  | .line n => if fields.line.isNone then some { fields with line := some n } else none
  | .kind k => if fields.kind.isNone then some { fields with kind := some k } else none
  | .slots s => if fields.slots.isNone then some { fields with slots := some s } else none

/-- Two fields can be set in either order; of two equal ones the second is refused
either way. -/
theorem set?_comm (fields : NodeFields) (d e : NodeField) :
    (fields.set? d).bind (·.set? e) = (fields.set? e).bind (·.set? d) := by
  obtain ⟨line, kind, slots⟩ := fields
  cases d <;> cases e <;> cases line <;> cases kind <;> cases slots <;> rfl

theorem ofEntries?_cons (e : String × Value) (es : List (String × Value)) :
    ofEntries? (e :: es) =
      (ofEntries? es).bind fun fields => (NodeField.ofEntry? e).bind fields.set? := by
  obtain ⟨key, v⟩ := e
  rw [ofEntries?, NodeField.ofEntry?]
  refine congrArg (Option.bind _) (funext fun fields => ?_)
  obtain ⟨line, kind, slots⟩ := fields
  dsimp only
  split
  · cases line <;> cases v.word? <;> rfl
  · cases kind <;> cases Kind.ofValue? v <;> rfl
  · cases slots <;> cases OutlineSlots.ofValue? v <;> rfl
  · simp_all

/-- The entries of a node are read the same in any order. -/
theorem ofEntries?_perm {es fs : List (String × Value)} (h : es.Perm fs) :
    ofEntries? es = ofEntries? fs := by
  induction h with
  | nil => rfl
  | cons e _ ih => rw [ofEntries?_cons, ofEntries?_cons, ih]
  | swap d e es =>
      simp only [ofEntries?_cons, Option.bind_assoc]
      refine congrArg (Option.bind _) (funext fun fields => ?_)
      cases NodeField.ofEntry? d with
      | none => cases NodeField.ofEntry? e <;> simp
      | some x =>
          cases NodeField.ofEntry? e with
          | none => simp
          | some y => exact set?_comm fields x y
  | trans _ _ ih₁ ih₂ => rw [ih₁, ih₂]

/-- The fields of a node as it is written. -/
theorem ofEntries?_written {line kind children : Value} {n : UInt32} {k : Kind}
    {s : OutlineSlots} (hline : line.word? = some n) (hkind : Kind.ofValue? kind = some k)
    (hslots : OutlineSlots.ofValue? children = some s) :
    ofEntries? [("line", line), ("kind", kind), ("children", children)] =
      some { line := some n, kind := some k, slots := some s } := by
  simp [ofEntries?, hline, hkind, hslots]

end NodeFields

/-- The outline of a program: three slots everywhere. -/
def Forest.outline : Forest → Outline
  | .nil => .nil
  | .node l a b c rest =>
    .node l.line l.kind (.cons a.outline (.cons b.outline (.cons c.outline .nil))) rest.outline

/-- Three slots are never too many. -/
theorem Forest.toForest_outline (f : Forest) : f.outline.toForest = .ok f.bare := by
  induction f with
  | nil => rfl
  | node l a b c rest iha ihb ihc ihr =>
      simp [outline, Outline.toForest, OutlineSlots.toForests, OutlineSlots.length, iha, ihb, ihc,
        ihr, bare, Label.bare, bind, Except.bind, pure, Except.pure]

namespace Outline

/-- Three slots are read back, if what is in them is. -/
theorem slots_same {v : Value} {a b c : Forest}
    (ha : ∀ {vs}, Value.SameItems vs a.toValues → ofValues? vs = some a.outline)
    (hb : ∀ {vs}, Value.SameItems vs b.toValues → ofValues? vs = some b.outline)
    (hc : ∀ {vs}, Value.SameItems vs c.toValues → ofValues? vs = some c.outline)
    (h : v.Same (.array [.array a.toValues, .array b.toValues, .array c.toValues])) :
    OutlineSlots.ofValue? v =
      some (.cons a.outline (.cons b.outline (.cons c.outline .nil))) := by
  obtain ⟨_, rfl, hs⟩ := Value.same_array h
  obtain ⟨_, _, rfl, hx, hs⟩ := hs.cons_inv
  obtain ⟨_, _, rfl, hy, hs⟩ := hs.cons_inv
  obtain ⟨_, _, rfl, hz, hs⟩ := hs.cons_inv
  cases hs
  obtain ⟨_, rfl, hxs⟩ := Value.same_array hx
  obtain ⟨_, rfl, hys⟩ := Value.same_array hy
  obtain ⟨_, rfl, hzs⟩ := Value.same_array hz
  simp [OutlineSlots.ofValue?, OutlineSlots.ofValues?, ha hxs, hb hys, hc hzs]

/-- A chain is read back, and with it all that hangs from it. -/
theorem ofValues?_same {f : Forest} {vs : List Value} (h : Value.SameItems vs f.toValues) :
    ofValues? vs = some f.outline := by
  induction f generalizing vs with
  | nil =>
      cases h
      rfl
  | node l a b c rest iha ihb ihc ihr =>
      obtain ⟨_, _, rfl, hnode, hrest⟩ := h.cons_inv
      obtain ⟨_, _, rfl, hperm, hsame⟩ := Value.same_table hnode
      obtain ⟨_, _, rfl, hline, hsame⟩ := hsame.cons_inv
      obtain ⟨_, _, rfl, hkind, hsame⟩ := hsame.cons_inv
      obtain ⟨_, _, rfl, hslots, hsame⟩ := hsame.cons_inv
      obtain rfl := hsame.nil_inv
      have hfields := NodeFields.ofEntries?_written (Value.same_ofWord hline)
        (Kind.ofValue?_same hkind) (slots_same iha ihb ihc hslots)
      rw [← NodeFields.ofEntries?_perm hperm] at hfields
      simp [ofValues?, NodeFields.ofValue?, hfields, ihr hrest, Forest.outline]

theorem ofDocument?_same {f : Forest} {entries : List (String × Value)}
    (h : Value.Same (.table entries) (.table f.toDocument)) :
    ofDocument? entries = some f.outline := by
  obtain ⟨_, _, heq, hperm, hsame⟩ := Value.same_table h
  obtain rfl := Value.table.inj heq
  obtain ⟨_, _, rfl, hprogram, hsame⟩ := hsame.cons_inv
  obtain rfl := hsame.nil_inv
  obtain ⟨_, rfl, hitems⟩ := Value.same_array hprogram
  rw [List.perm_singleton.mp hperm]
  exact ofValues?_same hitems

end Outline

/-- A program survives being written and read. -/
structure Forest.RoundTrips (f : Forest) : Prop where
  /-- A document that says the same as the program's own decodes to the program. -/
  decoded : ∀ entries : List (String × Value), Value.Same (.table entries) (.table f.toDocument) →
    ∃ outline, Outline.ofDocument? entries = some outline ∧ outline.toForest = .ok f
  /-- So does every text of such a document. -/
  read : ∀ (source : String) (entries : List (String × Value)),
    Document.parse source = some entries →
      Value.Same (.table entries) (.table f.toDocument) → Exchange.parse source = .ok f
  /-- No other program has a document that says the same. -/
  distinct : ∀ g : Forest, g.bare = g → g ≠ f →
    ¬ Value.Same (.table g.toDocument) (.table f.toDocument)

/-- A program without marks survives being written and read. -/
theorem Forest.roundTrips {f : Forest} (hf : f.bare = f) : f.RoundTrips where
  decoded := by
    intro entries h
    refine ⟨f.outline, Outline.ofDocument?_same h, ?_⟩
    rw [toForest_outline, hf]
  read := by
    intro source entries hparse h
    simp only [Exchange.parse, hparse, Outline.ofDocument?_same h, toForest_outline, hf]
  distinct := by
    intro g hg hne h
    have hread := Outline.ofDocument?_same h
    rw [Outline.ofDocument?_same (Value.Same.refl (.table g.toDocument))] at hread
    have htree := congrArg Outline.toForest (Option.some.inj hread)
    rw [toForest_outline, toForest_outline, hg, hf] at htree
    exact hne (Except.ok.inj htree)

/-- A tree at both limits of its integers. -/
def limits : Forest :=
  .node { kind := .returnValue, line := 0 }
    (.node { kind := .const Int64.minValue, line := 4294967295 } .nil .nil .nil .nil)
    .nil .nil .nil

/-- The same tree as a text, with a header and the fields of a node in another order. -/
def limitsText : String :=
  "[[program]]\nchildren = [[\x7bchildren = [[],[],[]], " ++
  "kind = \x7bconst = \x7bvalue = -9223372036854775808\x7d\x7d, " ++
  "line = 4294967295\x7d],[],[]]\nkind = \"return\"\nline = 0\n"

/-- The table of that text. -/
def limitsEntries : List (String × Value) :=
  [("program", .array [.table
    [("children", .array
      [.array [.table
        [("children", .array [.array [], .array [], .array []]),
         ("kind", .tagged "const" [("value", .integer Int64.minValue)]),
         ("line", .ofWord 4294967295)]],
       .array [], .array []]),
     ("kind", .string "return"), ("line", .ofWord 0)]])]

theorem same_limitsEntries :
    Value.Same (.table limitsEntries) (.table limits.toDocument) := by
  refine .table (.refl _) (.cons _ (.array (.cons ?_ .nil)) .nil)
  refine .table (List.reverse_perm _).symm (.cons _ (Value.Same.refl _)
    (.cons _ (Value.Same.refl _) (.cons _ ?_ .nil)))
  refine .array (.cons (.array (.cons ?_ .nil)) (Value.SameItems.refl _))
  exact .table (List.reverse_perm _).symm (Value.SameEntries.refl _)

set_option maxRecDepth 100000 in
theorem parse_limitsText : Document.parse limitsText = some limitsEntries := by
  cbv

theorem roundTrips_limits :
    limits.bare = limits ∧ Exchange.parse limitsText = .ok limits ∧
      ¬ Value.Same (.table Forest.nil.toDocument) (.table limits.toDocument) := by
  have h := Forest.roundTrips (f := limits) rfl
  exact ⟨rfl, h.read limitsText limitsEntries parse_limitsText same_limitsEntries,
    h.distinct .nil rfl (by decide)⟩

end CMinus
