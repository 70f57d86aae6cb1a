import Packrat.Proofs.Agreement

/-!
# Parse trees

The accepted derivation of a parser as a tree, with a node for each parser that takes part in it. What
was tried and rejected, what a lookahead has seen and what a parser without parts of its own has gone
through are not in the tree. A parser has at most one tree at a position (`Parsed.unique`), and the nodes
below a node lie inside its span (`Parsed.node`).
-/

namespace Packrat

variable {V : Type}

/-- A parser that takes part in a derivation: where it starts and stops, its value, and the parsers that
it got its value from, in order. -/
inductive ParseTree (V : Type) where
  | node (parser : Parser V) (start stop : Nat) (value : V) (parts : List (ParseTree V))

/-- The label of the function that the parser itself applies to values. -/
@[simp]
def Parser.label? : Parser V → Option String
  | .pair _ _ _ label _ | .map _ label _ => some label
  | _ => none

namespace ParseTree

def parser : ParseTree V → Parser V
  | node p _ _ _ _ => p

def start : ParseTree V → Nat
  | node _ s _ _ _ => s

def stop : ParseTree V → Nat
  | node _ _ e _ _ => e

def value : ParseTree V → V
  | node _ _ _ v _ => v

def parts : ParseTree V → List (ParseTree V)
  | node _ _ _ _ ts => ts

@[simp] theorem parser_node {p s e v} {ts : List (ParseTree V)} : (node p s e v ts).parser = p := rfl

@[simp] theorem start_node {p s e v} {ts : List (ParseTree V)} : (node p s e v ts).start = s := rfl

@[simp] theorem stop_node {p s e v} {ts : List (ParseTree V)} : (node p s e v ts).stop = e := rfl

@[simp] theorem value_node {p s e v} {ts : List (ParseTree V)} : (node p s e v ts).value = v := rfl

@[simp] theorem parts_node {p s e v} {ts : List (ParseTree V)} : (node p s e v ts).parts = ts := rfl

mutual

/-- The nodes of the tree, from the bottom up and from left to right. -/
def postorder : ParseTree V → List (ParseTree V)
  | node p s e v ts => postorderOfParts ts ++ [node p s e v ts]

def postorderOfParts : List (ParseTree V) → List (ParseTree V)
  | [] => []
  | t :: ts => t.postorder ++ postorderOfParts ts

end

/-- One use of a function on values for each node that applies one, in postorder. -/
def actions (t : ParseTree V) : List String := t.postorder.filterMap fun u => u.parser.label?

theorem postorderOfParts_eq (ts : List (ParseTree V)) : postorderOfParts ts = ts.flatMap postorder := by
  induction ts with
  | nil => rfl
  | cons t ts ih => simp [postorderOfParts, ih]

theorem mem_postorder {t u : ParseTree V} :
    u ∈ t.postorder ↔ (∃ c ∈ t.parts, u ∈ c.postorder) ∨ u = t := by
  cases t
  simp [postorder, postorderOfParts_eq]

/-- What a tree passes on to its parts holds of all its nodes. -/
theorem postorder_induction {P : ParseTree V → Prop} (hpart : ∀ t, P t → ∀ c ∈ t.parts, P c)
    {t : ParseTree V} (ht : P t) : ∀ u ∈ t.postorder, P u := by
  intro u hu
  rcases mem_postorder.mp hu with ⟨c, hc, hu⟩ | rfl
  · exact postorder_induction hpart (hpart t ht c hc) u hu
  · exact ht
termination_by t
decreasing_by
  cases t
  have := List.sizeOf_lt_of_mem hc
  simp only [parts_node, node.sizeOf_spec] at this ⊢
  omega

@[simp] theorem actions_node {p : Parser V} {s e v} {ts : List (ParseTree V)} :
    (node p s e v ts).actions = ts.flatMap actions ++ p.label?.toList := by
  have hself : List.filterMap (fun u : ParseTree V => u.parser.label?) [node p s e v ts] =
      p.label?.toList := by
    simp only [List.filterMap_cons, List.filterMap_nil, parser_node]
    cases p.label? <;> rfl
  rw [actions, postorder, postorderOfParts_eq, List.filterMap_append, List.filterMap_flatMap, hself]
  rfl

/-- The node `u` lies inside the span of the node `t`. -/
structure Contains (t u : ParseTree V) : Prop where
  start_le : t.start ≤ u.start
  le : u.start ≤ u.stop
  stop_le : u.stop ≤ t.stop

end ParseTree

open ParseTree

/-- The tree is the accepted derivation of the parser at the position. Where an alternative, an option
or a further round is passed over, its parser yields nothing there. -/
inductive Parsed (g : Grammar V) (text : Buffer) : Parser V → Nat → ParseTree V → Prop
  | silent {r v s e} (h : Matches g text r s (.accepted e)) :
      Parsed g text (.silent r v) s (.node (.silent r v) s e v [])
  | character {r embed d test s c} (hb : g.body r = .predicate d test) (hc : text.char? s = some c)
      (ht : test c = true) :
      Parsed g text (.character r embed) s (.node (.character r embed) s (s + 1) (embed c) [])
  | characters {r embed i d test s cs} (hb : g.body r = .plus i) (hi : g.body i = .predicate d test)
      (hcs : (text.rest s).takeWhile test = cs) (hne : cs ≠ []) :
      Parsed g text (.characters r embed) s
        (.node (.characters r embed) s (s + cs.length) (embed cs) [])
  | pair {r a b label combine s ta tb} (ha : Parsed g text a s ta) (hb : Parsed g text b ta.stop tb) :
      Parsed g text (.pair r a b label combine) s
        (.node (.pair r a b label combine) s tb.stop (combine ta.value tb.value) [ta, tb])
  | choice_first {r slot rest a s t} (hs : g.parserTarget slot = some a) (ha : Parsed g text a s t) :
      Parsed g text (.choice r (slot :: rest)) s
        (.node (.choice r (slot :: rest)) s t.stop t.value [t])
  | choice_next {r slot rest a s t} (hs : g.parserTarget slot = some a) (ha : Yields g text a s none)
      (ht : Parsed g text (.choice r rest) s t) :
      Parsed g text (.choice r (slot :: rest)) s
        (.node (.choice r (slot :: rest)) s t.stop t.value t.parts)
  | star_more {r item collect s t ts} (hi : Parsed g text item s t)
      (ht : Parsed g text (.star r item fun xs => collect (t.value :: xs)) t.stop ts) :
      Parsed g text (.star r item collect) s
        (.node (.star r item collect) s ts.stop ts.value (t :: ts.parts))
  | star_stop {r item collect s} (hi : Yields g text item s none) :
      Parsed g text (.star r item collect) s (.node (.star r item collect) s s (collect []) [])
  | plus {r item collect s t ts} (hi : Parsed g text item s t)
      (ht : Parsed g text (.star r item fun xs => collect (t.value :: xs)) t.stop ts) :
      Parsed g text (.plus r item collect) s
        (.node (.plus r item collect) s ts.stop ts.value (t :: ts.parts))
  | option_some {r item embed s t} (hi : Parsed g text item s t) :
      Parsed g text (.option r item embed) s
        (.node (.option r item embed) s t.stop (embed (some t.value)) [t])
  | option_none {r item embed s} (hi : Yields g text item s none) :
      Parsed g text (.option r item embed) s (.node (.option r item embed) s s (embed none) [])
  | map {inner label transform s t} (hi : Parsed g text inner s t) :
      Parsed g text (.map inner label transform) s
        (.node (.map inner label transform) s t.stop (transform t.value) [t])
  | spanned {inner embed s t} (hi : Parsed g text inner s t) :
      Parsed g text (.spanned inner embed) s
        (.node (.spanned inner embed) s t.stop (embed t.value ⟨text, s, t.stop⟩) [t])
  | deferred {r slot a s t} (hs : g.parserTarget slot = some a) (ha : Parsed g text a s t) :
      Parsed g text (.deferred r slot) s (.node (.deferred r slot) s t.stop t.value [t])

variable {g : Grammar V} {text : Buffer} {p : Parser V} {s : Nat} {t : ParseTree V}

namespace Parsed

theorem parser_eq (h : Parsed g text p s t) : t.parser = p := by cases h <;> rfl

theorem start_eq (h : Parsed g text p s t) : t.start = s := by cases h <;> rfl

theorem actions_eq (h : Parsed g text p s t) :
    t.actions = t.parts.flatMap actions ++ p.label?.toList := by
  rw [← h.parser_eq]
  cases t
  exact actions_node

/-- The root of the tree has the value and the end of the one pass. -/
theorem yields (h : Parsed g text p s t) : Yields g text p s (some (t.value, t.stop)) := by
  induction h with
  | silent h => exact .silent h
  | character hb hc ht => exact .character hb hc ht
  | characters hb hi hcs hne => exact .characters hb hi hcs hne
  | pair _ _ iha ihb => exact .pair iha ihb
  | choice_first hs _ iha => exact .choice_first hs iha
  | choice_next hs ha _ iht => exact .choice_next hs ha iht
  | star_more _ _ ihi iht => exact .star_more ihi iht
  | star_stop hi => exact .star_stop hi
  | plus _ _ ihi iht => exact .plus ihi iht
  | option_some _ ihi => exact .option_some ihi
  | option_none hi => exact .option_none hi
  | map _ ihi => exact .map ihi
  | spanned _ ihi => exact .spanned ihi
  | deferred hs _ iha => exact .deferred hs iha

theorem not_yields_none (h : Parsed g text p s t) : ¬ Yields g text p s none :=
  fun hn => nomatch h.yields.unique hn

theorem unique {t'} (h : Parsed g text p s t) (h' : Parsed g text p s t') : t = t' := by
  induction h generalizing t' with
  | silent h => cases h' with
      | silent h' => cases Matches.unique h h'; rfl
  | character _ hc => cases h' with
      | character _ hc' => cases hc.symm.trans hc'; rfl
  | characters hb hi hcs => cases h' with
      | characters hb' hi' hcs' =>
          cases hb.symm.trans hb'
          cases hi.symm.trans hi'
          cases hcs.symm.trans hcs'
          rfl
  | pair _ _ iha ihb => cases h' with
      | pair ha hb =>
          cases iha ha
          cases ihb hb
          rfl
  | choice_first hs ha iha => cases h' with
      | choice_first hs' ha' =>
          cases hs.symm.trans hs'
          cases iha ha'
          rfl
      | choice_next hs' hn _ =>
          cases hs.symm.trans hs'
          exact absurd hn ha.not_yields_none
  | choice_next hs hn _ iht => cases h' with
      | choice_first hs' ha' =>
          cases hs.symm.trans hs'
          exact absurd hn ha'.not_yields_none
      | choice_next _ _ ht =>
          cases iht ht
          rfl
  | star_more hi _ ihi iht => cases h' with
      | star_more hi' ht =>
          cases ihi hi'
          cases iht ht
          rfl
      | star_stop hn => exact absurd hn hi.not_yields_none
  | star_stop hn => cases h' with
      | star_more hi' _ => exact absurd hn hi'.not_yields_none
      | star_stop => rfl
  | plus _ _ ihi iht => cases h' with
      | plus hi' ht =>
          cases ihi hi'
          cases iht ht
          rfl
  | option_some hi ihi => cases h' with
      | option_some hi' =>
          cases ihi hi'
          rfl
      | option_none hn => exact absurd hn hi.not_yields_none
  | option_none hn => cases h' with
      | option_some hi' => exact absurd hn hi'.not_yields_none
      | option_none => rfl
  | map _ ihi => cases h' with
      | map hi' => cases ihi hi'; rfl
  | spanned _ ihi => cases h' with
      | spanned hi' => cases ihi hi'; rfl
  | deferred hs _ iha => cases h' with
      | deferred hs' ha' =>
          cases hs.symm.trans hs'
          cases iha ha'
          rfl

/-! ## Nodes -/

theorem bounds (h : Parsed g text p s t) :
    s ≤ t.stop ∧ (s ≤ text.length → t.stop ≤ text.length) := by
  induction h with
  | silent h => exact ⟨h.start_le, h.end_le⟩
  | character _ hc =>
      obtain ⟨hs, -⟩ := Buffer.char?_eq_some_iff.mp hc
      exact ⟨Nat.le_succ _, fun _ => hs⟩
  | characters _ _ hcs =>
      have hprefix := hcs ▸ List.takeWhile_prefix _
      exact ⟨Nat.le_add_right .., fun hs => Buffer.add_length_le_of_prefix hs hprefix⟩
  | pair _ _ iha ihb | star_more _ _ iha ihb | plus _ _ iha ihb =>
      exact ⟨Nat.le_trans iha.1 ihb.1, fun hs => ihb.2 (iha.2 hs)⟩
  | choice_first _ _ ih | choice_next _ _ _ ih | option_some _ ih | map _ ih | spanned _ ih
  | deferred _ _ ih => exact ih
  | star_stop | option_none => exact ⟨Nat.le_refl _, id⟩

/-- Each part is the accepted derivation of its own parser, inside the span of the whole. -/
theorem part (h : Parsed g text p s t) :
    ∀ c ∈ t.parts, Parsed g text c.parser c.start c ∧ s ≤ c.start ∧ c.stop ≤ t.stop := by
  have hwhole : ∀ {a s c e}, Parsed g text a s c → c.stop ≤ e →
      Parsed g text c.parser c.start c ∧ s ≤ c.start ∧ c.stop ≤ e := by
    intro a s c e hc he
    rw [hc.parser_eq, hc.start_eq]
    exact ⟨hc, Nat.le_refl _, he⟩
  induction h with
  | silent | character | characters | star_stop | option_none => exact fun _ hc => nomatch hc
  | pair ha hb =>
      intro c hc
      obtain rfl | rfl : c = _ ∨ c = _ := by simpa using hc
      · exact hwhole ha hb.bounds.1
      · obtain ⟨hb', hstart, hstop⟩ := hwhole hb (Nat.le_refl _)
        exact ⟨hb', Nat.le_trans ha.bounds.1 hstart, hstop⟩
  | choice_next _ _ _ ih => exact ih
  | star_more hi ht _ ih | plus hi ht _ ih =>
      intro c hc
      rcases List.mem_cons.mp hc with rfl | hc
      · exact hwhole hi ht.bounds.1
      · obtain ⟨hc', hstart, hstop⟩ := ih c hc
        exact ⟨hc', Nat.le_trans hi.bounds.1 hstart, hstop⟩
  | choice_first _ hi | option_some hi | map hi | spanned hi | deferred _ hi =>
      intro c hc
      obtain rfl : c = _ := by simpa using hc
      exact hwhole hi (Nat.le_refl _)

/-- The parser of a part is an operand of the parser of the whole, or the target of a slot. -/
theorem part_origin (h : Parsed g text p s t) :
    ∀ c ∈ t.parts, c.parser ∈ p.operands ∨ ∃ slot, g.parserTarget slot = some c.parser := by
  induction h with
  | silent | character | characters | star_stop | option_none => exact fun _ hc => nomatch hc
  | pair ha hb =>
      intro c hc
      obtain rfl | rfl : c = _ ∨ c = _ := by simpa using hc
      · rw [ha.parser_eq]
        exact .inl List.mem_cons_self
      · rw [hb.parser_eq]
        exact .inl (List.mem_cons_of_mem _ List.mem_cons_self)
  | choice_next _ _ _ ih => exact ih
  | star_more hi _ _ ih | plus hi _ _ ih =>
      intro c hc
      rcases List.mem_cons.mp hc with rfl | hc
      · rw [hi.parser_eq]
        exact .inl List.mem_cons_self
      · exact ih c hc
  | option_some hi | map hi | spanned hi =>
      intro c hc
      obtain rfl : c = _ := by simpa using hc
      rw [hi.parser_eq]
      exact .inl List.mem_cons_self
  | choice_first hs ha | deferred hs ha =>
      intro c hc
      obtain rfl : c = _ := by simpa using hc
      rw [ha.parser_eq]
      exact .inr ⟨_, hs⟩

theorem self_parsed (h : Parsed g text p s t) : Parsed g text t.parser t.start t := by
  rw [h.parser_eq, h.start_eq]
  exact h

/-- Every node is the accepted derivation of its own parser, inside the span of the tree. -/
theorem node (h : Parsed g text p s t) :
    ∀ u ∈ t.postorder, Parsed g text u.parser u.start u ∧ t.Contains u := by
  apply postorder_induction (P := fun u => Parsed g text u.parser u.start u ∧ t.Contains u)
  · rintro u ⟨hu, hin⟩ c hc
    obtain ⟨hparsed, hstart, hstop⟩ := hu.part c hc
    exact ⟨hparsed, Nat.le_trans hin.start_le hstart, hparsed.bounds.1, Nat.le_trans hstop hin.stop_le⟩
  · exact ⟨h.self_parsed, Nat.le_refl _, h.self_parsed.bounds.1, Nat.le_refl _⟩

theorem node_aligned (h : Parsed g text p s t) (hg : g.Aligned) (hp : p.Aligned g) :
    ∀ u ∈ t.postorder, u.parser.Aligned g := by
  suffices hnodes : ∀ u ∈ t.postorder, Parsed g text u.parser u.start u ∧ u.parser.Aligned g from
    fun u hu => (hnodes u hu).2
  apply postorder_induction (P := fun u => Parsed g text u.parser u.start u ∧ u.parser.Aligned g)
  · rintro u ⟨hu, haligned⟩ c hc
    refine ⟨(hu.part c hc).1, ?_⟩
    rcases hu.part_origin c hc with hoperand | ⟨slot, hslot⟩
    · exact haligned.operand _ hoperand
    · exact hg slot _ hslot
  · exact ⟨h.self_parsed, h.parser_eq ▸ hp⟩

end Parsed

end Packrat
