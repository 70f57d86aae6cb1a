import Packrat.Proofs.Comparison
import Packrat.Sample.Lambda

/-!
# What lies before the start

Recognition depends on nothing before the position where it starts: in the suffix from there it ends in
the same way, with all positions moved back (`accept_suffix`).
-/

namespace Packrat

open Engine

variable {V : Type} {g : Grammar V} {text text' : Buffer}

/-! ## Suffixes -/

namespace Buffer

variable {b : Buffer}

/-- The text from a position on. -/
def suffix (b : Buffer) (p : Nat) : Buffer := ⟨b.id, (b.rest p).toArray⟩

theorem char?_eq_head? {p : Nat} : b.char? p = (b.rest p).head? := by
  simp [char?, rest, List.head?_drop]

theorem rest_add {p k : Nat} : b.rest (p + k) = (b.rest p).drop k := by
  simp only [rest, List.drop_drop]

theorem rest_suffix {p : Nat} : (b.suffix p).rest 0 = b.rest p := rfl

end Buffer

/-! ## Derivations at another place -/

/-- The positions lie equally far behind `a` and `a'`. -/
def Displaced (a a' p p' : Nat) : Prop := ∃ k, p = a + k ∧ p' = a' + k

namespace Displaced

variable {a a' p p' : Nat}

theorem start : Displaced a a' a a' := ⟨0, rfl, rfl⟩

theorem add (h : Displaced a a' p p') (n : Nat) : Displaced a a' (p + n) (p' + n) := by
  obtain ⟨k, rfl, rfl⟩ := h
  exact ⟨k + n, Nat.add_assoc .., Nat.add_assoc ..⟩

theorem rest_eq (h : Displaced a a' p p') (hsame : text.rest a = text'.rest a') :
    text.rest p = text'.rest p' := by
  obtain ⟨k, rfl, rfl⟩ := h
  rw [Buffer.rest_add, Buffer.rest_add, hsame]

theorem char?_eq (h : Displaced a a' p p') (hsame : text.rest a = text'.rest a') :
    text.char? p = text'.char? p' := by
  rw [Buffer.char?_eq_head?, Buffer.char?_eq_head?, h.rest_eq hsame]

end Displaced

/-- A derivation can be carried to another place where the text goes on in the same way. -/
theorem Derives.displace {a a' b p p' o} (hsame : text.rest a = text'.rest a') (h : Derives g text b p o)
    (hp : Displaced a a' p p') : ∃ o', o.Corresponds (Displaced a a') o' ∧ Derives g text' b p' o' := by
  induction h generalizing p' with
  | literal h => exact ⟨_, .accepted (hp.add _), .literal (hp.rest_eq hsame ▸ h)⟩
  | literal_reject h => exact ⟨_, .rejected, .literal_reject (hp.rest_eq hsame ▸ h)⟩
  | predicate hc ht => exact ⟨_, .accepted (hp.add 1), .predicate (hp.char?_eq hsame ▸ hc) ht⟩
  | predicate_reject h => exact ⟨_, .rejected, .predicate_reject (hp.char?_eq hsame ▸ h)⟩
  | sequence_nil => exact ⟨_, .accepted hp, .sequence_nil⟩
  | sequence_cons _ _ ih iht =>
      obtain ⟨_, hq, h⟩ := ih hp
      cases hq with
      | accepted hq =>
          obtain ⟨o', ho, ht⟩ := iht hq
          exact ⟨o', ho, .sequence_cons h ht⟩
  | sequence_reject _ ih =>
      obtain ⟨_, hq, h⟩ := ih hp
      cases hq
      exact ⟨_, .rejected, .sequence_reject h⟩
  | choice_nil => exact ⟨_, .rejected, .choice_nil⟩
  | choice_first ha _ ih =>
      obtain ⟨_, hq, h⟩ := ih hp
      cases hq with
      | accepted hq => exact ⟨_, .accepted hq, .choice_first ha h⟩
  | choice_next ha _ _ ih iht =>
      obtain ⟨_, hq, h⟩ := ih hp
      cases hq
      obtain ⟨o', ho, ht⟩ := iht hp
      exact ⟨o', ho, .choice_next ha h ht⟩
  | star_more _ _ ih iht =>
      obtain ⟨_, hq, h⟩ := ih hp
      cases hq with
      | accepted hq =>
          obtain ⟨_, he, ht⟩ := iht hq
          cases he with
          | accepted he => exact ⟨_, .accepted he, .star_more h ht⟩
  | star_stop _ ih =>
      obtain ⟨_, hq, h⟩ := ih hp
      cases hq
      exact ⟨_, .accepted hp, .star_stop h⟩
  | plus _ _ ih iht =>
      obtain ⟨_, hq, h⟩ := ih hp
      cases hq with
      | accepted hq =>
          obtain ⟨_, he, ht⟩ := iht hq
          cases he with
          | accepted he => exact ⟨_, .accepted he, .plus h ht⟩
  | plus_reject _ ih =>
      obtain ⟨_, hq, h⟩ := ih hp
      cases hq
      exact ⟨_, .rejected, .plus_reject h⟩
  | option_some _ ih =>
      obtain ⟨_, hq, h⟩ := ih hp
      cases hq with
      | accepted hq => exact ⟨_, .accepted hq, .option_some h⟩
  | option_none _ ih =>
      obtain ⟨_, hq, h⟩ := ih hp
      cases hq
      exact ⟨_, .accepted hp, .option_none h⟩
  | and _ ih =>
      obtain ⟨_, hq, h⟩ := ih hp
      cases hq
      exact ⟨_, .accepted hp, .and h⟩
  | and_reject _ ih =>
      obtain ⟨_, hq, h⟩ := ih hp
      cases hq
      exact ⟨_, .rejected, .and_reject h⟩
  | not _ ih =>
      obtain ⟨_, hq, h⟩ := ih hp
      cases hq
      exact ⟨_, .accepted hp, .not h⟩
  | not_reject _ ih =>
      obtain ⟨_, hq, h⟩ := ih hp
      cases hq
      exact ⟨_, .rejected, .not_reject h⟩

/-! ## Recognition at another place -/

/-- From places where two texts go on in the same way, recognition concurs, whatever right tables the two
runs start with. -/
theorem accept_displaced {r : RuleId} {run run' : Run V} (complete : g.Complete r)
    (good : run.Good g text) (good' : run'.Good g text')
    (hsame : text.rest run.position = text'.rest run'.position) :
    Concur (fun fuel => accept g text fuel r) (fun fuel => accept g text' fuel r) run run'
      (Displaced run.position run'.position) := by
  refine .of_matches complete complete good good' (fun o hm => hm.displace hsame .start) ?_
  intro o' hm
  obtain ⟨o, -, hm'⟩ := hm.displace hsame.symm .start
  exact ⟨o, hm'⟩

/-- Recognition at `p` and recognition of the text from `p` on finish both or not at all, with the same
answer, and what the first accepts ends `p` characters later. So texts that agree from `p` on are recognized
in the same way at `p`. -/
theorem accept_suffix {r : RuleId} (complete : g.Complete r) {b b' : Bindings V} (sound : b.Sound g)
    (sound' : b'.Sound g) (s s' : Strategy) :
    (∀ text p, p ≤ text.length →
      Concur (fun fuel => accept g text fuel r) (fun fuel => accept g (text.suffix p) fuel r)
        (.begin p (.empty s) b) (.begin 0 (.empty s') b') fun e e' => e = p + e') ∧
    ∀ text text' p, p ≤ text.length → p ≤ text'.length → text.rest p = text'.rest p →
      Concur (fun fuel => accept g text fuel r) (fun fuel => accept g text' fuel r)
        (.begin p (.empty s) b) (.begin p (.empty s') b') Eq := by
  constructor
  · intro text p hp
    have hsame : text.rest p = (text.suffix p).rest 0 := Buffer.rest_suffix.symm
    apply (accept_displaced complete (.begin hp sound) (.begin (Nat.zero_le _) sound') hsame).mono
    rintro e e' ⟨k, rfl, rfl⟩
    exact congrArg (p + ·) (Nat.zero_add k).symm
  · intro text text' p hp hp' hsame
    apply (accept_displaced complete (.begin hp sound) (.begin hp' sound') hsame).mono
    rintro e e' ⟨k, rfl, rfl⟩
    rfl

/-- An application in the middle of a text, with a table and without one. -/
theorem accept_suffix_middle :
    let g := Lambda.workspace.grammar
    let text := Buffer.load 0 "z((λx.x)y)"
    let inner := Buffer.load 0 "(λx.x)y)"
    g.Complete Lambda.root.rule ∧ text.suffix 2 = inner ∧
      ∃ after after', accept g text 40 Lambda.root.rule (.begin 2 (.empty .full) .empty) = .ok true after ∧
        accept g inner 40 Lambda.root.rule (.begin 0 (.empty .none) .empty) = .ok true after' ∧
        after'.position = 7 ∧ after.position = 9 := by
  intro g text inner
  have complete : g.Complete Lambda.root.rule := Grammar.complete_of_targets (by decide +kernel) _
  have hsuffix : text.suffix 2 = inner := by decide +kernel
  have hrun : Ensures (accept g text 40 Lambda.root.rule) (.begin 2 (.empty .full) .empty)
      (fun _ _ => True) fun _ _ => False := by decide +kernel
  have hrun' : Ensures (accept g (text.suffix 2) 40 Lambda.root.rule) (.begin 0 (.empty .none) .empty)
      (fun x after => x = true ∧ after.position = 7) fun _ _ => False := by decide +kernel
  obtain ⟨_, _, hok, -⟩ := hrun.exists_ok
  obtain ⟨_, _, hok', rfl, hend⟩ := hrun'.exists_ok
  obtain ⟨hplace, -⟩ := accept_suffix complete Bindings.Sound.empty Bindings.Sound.empty .full .none
  have hconcur := hplace text 2 (by decide +kernel)
  obtain ⟨x, after, after', h, h', hsame⟩ := hconcur.answers 40 40 (.of_ok hok) (.of_ok hok')
  cases hok'.symm.trans h'
  have hpos := hsame rfl
  rw [hend] at hpos
  exact ⟨complete, hsuffix, after, _, h, hsuffix ▸ hok', hend, hpos⟩

end Packrat
