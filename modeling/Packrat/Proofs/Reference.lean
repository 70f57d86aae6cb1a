import Packrat.Proofs.Derivation

/-!
# One-pass parsing

What a parser yields at a position, by inference rules over parsers: each value is built as its match
goes along, with no table and no second pass. The rule of a parser says which characters its terminals
match, and what a parser without a value of its own matches. It decides nothing else.
-/

namespace Packrat

variable {V : Type}

/-- What parsing comes to: a value and the position where its match ends, or a rejection. -/
abbrev Yield (V : Type) := Option (V × Nat)

/-- The outcome that a yield is of. -/
def Yield.outcome : Yield V → Outcome
  | some (_, e) => .accepted e
  | none => .rejected

/-- Parsing from a position comes to a yield. A choice gives the value of the first alternative that
matches; a repetition takes every item it can, and the values of later rounds follow that of the
first. -/
inductive Yields (g : Grammar V) (text : Buffer) : Parser V → Nat → Yield V → Prop
  | silent {r v p e} (h : Matches g text r p (.accepted e)) :
      Yields g text (.silent r v) p (some (v, e))
  | silent_reject {r v p} (h : Matches g text r p .rejected) : Yields g text (.silent r v) p none
  | character {r embed d test p c} (hb : g.body r = .predicate d test) (hc : text.char? p = some c)
      (ht : test c = true) : Yields g text (.character r embed) p (some (embed c, p + 1))
  | character_reject {r embed d test p} (hb : g.body r = .predicate d test)
      (h : ∀ c, text.char? p = some c → test c = false) : Yields g text (.character r embed) p none
  | characters {r embed i d test p cs} (hb : g.body r = .plus i) (hi : g.body i = .predicate d test)
      (hcs : (text.rest p).takeWhile test = cs) (hne : cs ≠ []) :
      Yields g text (.characters r embed) p (some (embed cs, p + cs.length))
  | characters_reject {r embed i d test p} (hb : g.body r = .plus i) (hi : g.body i = .predicate d test)
      (hcs : (text.rest p).takeWhile test = []) : Yields g text (.characters r embed) p none
  | pair {r a b label combine p x q y e} (ha : Yields g text a p (some (x, q)))
      (hb : Yields g text b q (some (y, e))) :
      Yields g text (.pair r a b label combine) p (some (combine x y, e))
  | pair_first {r a b label combine p} (ha : Yields g text a p none) :
      Yields g text (.pair r a b label combine) p none
  | pair_second {r a b label combine p x q} (ha : Yields g text a p (some (x, q)))
      (hb : Yields g text b q none) : Yields g text (.pair r a b label combine) p none
  | choice_nil {r p} : Yields g text (.choice r []) p none
  | choice_first {r slot rest a p v e} (hs : g.parserTarget slot = some a)
      (ha : Yields g text a p (some (v, e))) :
      Yields g text (.choice r (slot :: rest)) p (some (v, e))
  | choice_next {r slot rest a p y} (hs : g.parserTarget slot = some a) (ha : Yields g text a p none)
      (ht : Yields g text (.choice r rest) p y) : Yields g text (.choice r (slot :: rest)) p y
  | star_more {r item collect p x q y} (hi : Yields g text item p (some (x, q)))
      (ht : Yields g text (.star r item fun xs => collect (x :: xs)) q y) :
      Yields g text (.star r item collect) p y
  | star_stop {r item collect p} (hi : Yields g text item p none) :
      Yields g text (.star r item collect) p (some (collect [], p))
  | plus {r item collect p x q y} (hi : Yields g text item p (some (x, q)))
      (ht : Yields g text (.star r item fun xs => collect (x :: xs)) q y) :
      Yields g text (.plus r item collect) p y
  | plus_reject {r item collect p} (hi : Yields g text item p none) :
      Yields g text (.plus r item collect) p none
  | option_some {r item embed p x e} (hi : Yields g text item p (some (x, e))) :
      Yields g text (.option r item embed) p (some (embed (some x), e))
  | option_none {r item embed p} (hi : Yields g text item p none) :
      Yields g text (.option r item embed) p (some (embed none, p))
  | map {inner label transform p x e} (hi : Yields g text inner p (some (x, e))) :
      Yields g text (.map inner label transform) p (some (transform x, e))
  | map_reject {inner label transform p} (hi : Yields g text inner p none) :
      Yields g text (.map inner label transform) p none
  | spanned {inner embed p x e} (hi : Yields g text inner p (some (x, e))) :
      Yields g text (.spanned inner embed) p (some (embed x ⟨text, p, e⟩, e))
  | spanned_reject {inner embed p} (hi : Yields g text inner p none) :
      Yields g text (.spanned inner embed) p none
  | deferred {r slot a p y} (hs : g.parserTarget slot = some a) (ha : Yields g text a p y) :
      Yields g text (.deferred r slot) p y

variable {g : Grammar V} {text : Buffer}

theorem Yields.unique {a p y y'} (h : Yields g text a p y) (h' : Yields g text a p y') : y = y' := by
  induction h generalizing y' with
  | silent h => cases h' with
      | silent h' => cases Matches.unique h h'; rfl
      | silent_reject h' => cases Matches.unique h h'
  | silent_reject h => cases h' with
      | silent h' => cases Matches.unique h h'
      | silent_reject => rfl
  | character hb hc ht => cases h' with
      | character _ hc' _ => cases hc.symm.trans hc'; rfl
      | character_reject hb' hn =>
          cases hb.symm.trans hb'
          simp [hn _ hc] at ht
  | character_reject hb hn => cases h' with
      | character hb' hc ht =>
          cases hb.symm.trans hb'
          simp [hn _ hc] at ht
      | character_reject => rfl
  | characters hb hi hcs hne => cases h' with
      | characters hb' hi' hcs' _ =>
          cases hb.symm.trans hb'
          cases hi.symm.trans hi'
          cases hcs.symm.trans hcs'
          rfl
      | characters_reject hb' hi' hcs' =>
          cases hb.symm.trans hb'
          cases hi.symm.trans hi'
          exact absurd (hcs.symm.trans hcs') hne
  | characters_reject hb hi hcs => cases h' with
      | characters hb' hi' hcs' hne =>
          cases hb.symm.trans hb'
          cases hi.symm.trans hi'
          exact absurd (hcs'.symm.trans hcs) hne
      | characters_reject => rfl
  | pair _ _ iha ihb => cases h' with
      | pair ha hb =>
          cases iha ha
          cases ihb hb
          rfl
      | pair_first ha => cases iha ha
      | pair_second ha hb =>
          cases iha ha
          cases ihb hb
  | pair_first _ iha => cases h' with
      | pair ha _ | pair_second ha _ => cases iha ha
      | pair_first => rfl
  | pair_second _ _ iha ihb => cases h' with
      | pair ha hb =>
          cases iha ha
          cases ihb hb
      | pair_first | pair_second => rfl
  | choice_nil => cases h'; rfl
  | choice_first hs _ iha => cases h' with
      | choice_first hs' ha =>
          cases hs.symm.trans hs'
          exact iha ha
      | choice_next hs' ha _ =>
          cases hs.symm.trans hs'
          cases iha ha
  | choice_next hs _ _ iha iht => cases h' with
      | choice_first hs' ha =>
          cases hs.symm.trans hs'
          cases iha ha
      | choice_next _ _ ht => exact iht ht
  | star_more _ _ ihi iht => cases h' with
      | star_more hi ht =>
          cases ihi hi
          exact iht ht
      | star_stop hi => cases ihi hi
  | star_stop _ ihi => cases h' with
      | star_more hi _ => cases ihi hi
      | star_stop => rfl
  | plus _ _ ihi iht => cases h' with
      | plus hi ht =>
          cases ihi hi
          exact iht ht
      | plus_reject hi => cases ihi hi
  | plus_reject _ ihi => cases h' with
      | plus hi _ => cases ihi hi
      | plus_reject => rfl
  | option_some _ ihi => cases h' with
      | option_some hi => cases ihi hi; rfl
      | option_none hi => cases ihi hi
  | option_none _ ihi => cases h' with
      | option_some hi => cases ihi hi
      | option_none => rfl
  | map _ ihi => cases h' with
      | map hi => cases ihi hi; rfl
      | map_reject hi => cases ihi hi
  | map_reject _ ihi => cases h' with
      | map hi => cases ihi hi
      | map_reject => rfl
  | spanned _ ihi => cases h' with
      | spanned hi => cases ihi hi; rfl
      | spanned_reject hi => cases ihi hi
  | spanned_reject _ ihi => cases h' with
      | spanned hi => cases ihi hi
      | spanned_reject => rfl
  | deferred hs _ iha => cases h' with
      | deferred hs' ha =>
          cases hs.symm.trans hs'
          exact iha ha

end Packrat
