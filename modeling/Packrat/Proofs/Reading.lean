import Packrat.Proofs.Reference

/-!
# Reading what is left of a text

One-pass parsing in terms of characters instead of positions: from where some characters are what is left
of the text, a parser reads a value and leaves fewer of them (`Reads`), or it fails (`Fails`). Both follow
the shape of the parser.
-/

namespace Packrat

variable {V : Type} {g : Grammar V} {text : Buffer}

/-- From the position on, the characters are what is left of the text. -/
structure Buffer.Leaves (b : Buffer) (s : Nat) (cs : List Char) : Prop where
  inside : s ≤ b.length
  rest : b.rest s = cs

/-- Wherever `cs` is left of the text, the parser yields the value, and `rest` is left after it. -/
def Reads (g : Grammar V) (text : Buffer) (p : Parser V) (cs : List Char) (v : V) (rest : List Char) :
    Prop :=
  ∀ s, text.Leaves s cs → ∃ e, text.Leaves e rest ∧ Yields g text p s (some (v, e))

/-- Wherever `cs` is left of the text, the parser yields nothing. -/
def Fails (g : Grammar V) (text : Buffer) (p : Parser V) (cs : List Char) : Prop :=
  ∀ s, text.Leaves s cs → Yields g text p s none

namespace Buffer.Leaves

variable {b : Buffer} {s : Nat} {c : Char} {cs : List Char}

theorem load {id : Nat} {input : String} : (Buffer.load id input).Leaves 0 input.toList :=
  ⟨Nat.zero_le _, rfl⟩

theorem position_eq (h : b.Leaves s cs) : s = b.length - cs.length := by
  have hlength := congrArg List.length h.rest
  have hinside := h.inside
  simp only [Buffer.rest, List.length_drop, Array.length_toList, Buffer.length] at hlength hinside ⊢
  omega

theorem char?_nil (h : b.Leaves s []) : b.char? s = none := by
  cases hc : b.char? s with
  | none => rfl
  | some c => cases (Buffer.rest_eq_cons hc).symm.trans h.rest

theorem char?_cons (h : b.Leaves s (c :: cs)) : b.char? s = some c := by
  cases hc : b.char? s with
  | none => cases (Buffer.rest_eq_nil hc).symm.trans h.rest
  | some d =>
      cases (Buffer.rest_eq_cons hc).symm.trans h.rest
      rfl

theorem tail (h : b.Leaves s (c :: cs)) : b.Leaves (s + 1) cs := by
  have hc := h.char?_cons
  obtain ⟨hlt, -⟩ := Buffer.char?_eq_some_iff.mp hc
  cases (Buffer.rest_eq_cons hc).symm.trans h.rest
  exact ⟨hlt, rfl⟩

theorem append {cs' : List Char} (h : b.Leaves s (cs ++ cs')) : b.Leaves (s + cs.length) cs' := by
  induction cs generalizing s with
  | nil => exact h
  | cons c cs ih =>
      rw [List.length_cons, Nat.add_comm cs.length, ← Nat.add_assoc]
      exact ih h.tail

end Buffer.Leaves

variable {r one : RuleId} {a b item inner : Parser V} {slot : Nat} {slots : List Nat} {c : Char}
  {cs lit mid rest : List Char} {v x y : V} {d : String} {test : Char → Bool}

namespace Reads

theorem word (hb : g.body r = .literal lit) : Reads g text (.silent r v) (lit ++ cs) v cs := by
  intro s hs
  have hm : Matches g text r s (.accepted (s + lit.length)) := by
    have hprefix : lit <+: text.rest s := by simp [hs.rest]
    rw [Matches, hb]
    exact .literal hprefix
  exact ⟨s + lit.length, hs.append, .silent hm⟩

theorem literal (hb : g.body r = .literal [c]) : Reads g text (.silent r v) (c :: cs) v cs := word hb

theorem character {embed} (hb : g.body r = .predicate d test) (ht : test c = true) :
    Reads g text (.character r embed) (c :: cs) (embed c) cs :=
  fun s hs => ⟨s + 1, hs.tail, .character hb hs.char?_cons ht⟩

theorem characters {embed} (hb : g.body r = .plus one) (hi : g.body one = .predicate d test)
    (hne : cs.takeWhile test ≠ []) : Reads g text (.characters r embed) cs
      (embed (cs.takeWhile test)) (cs.dropWhile test) := by
  intro s hs
  have hsplit : text.Leaves s (cs.takeWhile test ++ cs.dropWhile test) := by
    rwa [List.takeWhile_append_dropWhile]
  exact ⟨_, hsplit.append, .characters hb hi (by rw [hs.rest]) hne⟩

theorem pair {label combine} (ha : Reads g text a cs x mid) (hb : Reads g text b mid y rest) :
    Reads g text (.pair r a b label combine) cs (combine x y) rest := by
  intro s hs
  obtain ⟨q, hq, hx⟩ := ha s hs
  obtain ⟨e, he, hy⟩ := hb q hq
  exact ⟨e, he, .pair hx hy⟩

theorem choice_first (hs : g.parserTarget slot = some a) (ha : Reads g text a cs v rest) :
    Reads g text (.choice r (slot :: slots)) cs v rest := by
  intro s hcs
  obtain ⟨e, he, hy⟩ := ha s hcs
  exact ⟨e, he, .choice_first hs hy⟩

theorem choice_next (hs : g.parserTarget slot = some a) (ha : Fails g text a cs)
    (h : Reads g text (.choice r slots) cs v rest) :
    Reads g text (.choice r (slot :: slots)) cs v rest := by
  intro s hcs
  obtain ⟨e, he, hy⟩ := h s hcs
  exact ⟨e, he, .choice_next hs (ha s hcs) hy⟩

theorem star_more {collect} (hi : Reads g text item cs x mid)
    (ht : Reads g text (.star r item fun xs => collect (x :: xs)) mid v rest) :
    Reads g text (.star r item collect) cs v rest := by
  intro s hs
  obtain ⟨q, hq, hx⟩ := hi s hs
  obtain ⟨e, he, hy⟩ := ht q hq
  exact ⟨e, he, .star_more hx hy⟩

theorem star_stop {collect} (hi : Fails g text item cs) :
    Reads g text (.star r item collect) cs (collect []) cs :=
  fun s hs => ⟨s, hs, .star_stop (hi s hs)⟩

theorem plus {collect} (hi : Reads g text item cs x mid)
    (ht : Reads g text (.star r item fun xs => collect (x :: xs)) mid v rest) :
    Reads g text (.plus r item collect) cs v rest := by
  intro s hs
  obtain ⟨q, hq, hx⟩ := hi s hs
  obtain ⟨e, he, hy⟩ := ht q hq
  exact ⟨e, he, .plus hx hy⟩

theorem map {label transform} (hi : Reads g text inner cs x rest) :
    Reads g text (.map inner label transform) cs (transform x) rest := by
  intro s hs
  obtain ⟨e, he, hy⟩ := hi s hs
  exact ⟨e, he, .map hy⟩

end Reads

namespace Fails

theorem word (hb : g.body r = .literal lit) (h : ¬ lit <+: cs) : Fails g text (.silent r v) cs := by
  intro s hs
  have hm : Matches g text r s .rejected := by
    rw [Matches, hb]
    rw [← hs.rest] at h
    exact .literal_reject h
  exact .silent_reject hm

theorem literal (hb : g.body r = .literal [c]) (h : ∀ d ∈ cs.head?, d ≠ c) :
    Fails g text (.silent r v) cs := by
  apply word hb
  rintro ⟨tail, rfl⟩
  exact h c rfl rfl

theorem characters {embed} (hb : g.body r = .plus one) (hi : g.body one = .predicate d test)
    (h : cs.takeWhile test = []) : Fails g text (.characters r embed) cs :=
  fun s hs => .characters_reject hb hi (by rw [hs.rest, h])

theorem character {embed} (hb : g.body r = .predicate d test)
    (h : ∀ c ∈ cs.head?, test c = false) : Fails g text (.character r embed) cs := by
  intro s hs
  refine .character_reject hb fun c hc => ?_
  cases cs with
  | nil => cases hs.char?_nil.symm.trans hc
  | cons d cs =>
      cases hs.char?_cons.symm.trans hc
      exact h c rfl

theorem pair_first {label combine} (ha : Fails g text a cs) :
    Fails g text (.pair r a b label combine) cs := fun s hs => .pair_first (ha s hs)

theorem pair_second {label combine} (ha : Reads g text a cs x mid) (hb : Fails g text b mid) :
    Fails g text (.pair r a b label combine) cs := by
  intro s hs
  obtain ⟨q, hq, hx⟩ := ha s hs
  exact .pair_second hx (hb q hq)

theorem choice_nil : Fails g text (.choice r []) cs := fun _ _ => .choice_nil

theorem choice_next (hs : g.parserTarget slot = some a) (ha : Fails g text a cs)
    (h : Fails g text (.choice r slots) cs) : Fails g text (.choice r (slot :: slots)) cs :=
  fun s hcs => .choice_next hs (ha s hcs) (h s hcs)

theorem plus {collect} (hi : Fails g text item cs) : Fails g text (.plus r item collect) cs :=
  fun s hs => .plus_reject (hi s hs)

theorem map {label transform} (hi : Fails g text inner cs) :
    Fails g text (.map inner label transform) cs := fun s hs => .map_reject (hi s hs)

end Fails

/-- A repeated character takes all that satisfy its test. -/
theorem Reads.star_character {embed : Char → V} {collect} (hb : g.body one = .predicate d test) :
    Reads g text (.star r (.character one embed) collect) cs
      (collect ((cs.takeWhile test).map embed)) (cs.dropWhile test) := by
  induction cs generalizing collect with
  | nil => exact .star_stop (.character hb nofun)
  | cons c cs ih =>
      cases ht : test c with
      | true =>
          simp only [List.takeWhile_cons, List.dropWhile_cons, ht, if_true]
          exact .star_more (.character hb ht) ih
      | false =>
          simp only [List.takeWhile_cons, List.dropWhile_cons, ht, Bool.false_eq_true, if_false]
          exact .star_stop (.character hb (by simpa using ht))

end Packrat
