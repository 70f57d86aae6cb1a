import Packrat.Proofs.OnePass
import Packrat.Proofs.WellFormed

/-!
# Well-formed grammars terminate

Below a well-formed root every rule has an outcome at every position of every text
(`Grammar.WellFormed.matches`), so recognition and parsing finish. A left call leaves the position where
it is and goes down in the order of left calls; any other call has consumed something.
-/

namespace Packrat

open Engine Relation

variable {V : Type} {g : Grammar V} {text : Buffer}

/-! ## Bodies whose parts have outcomes -/

theorem Derives.exists_sequence {rules p}
    (h : ∀ earlier r later q, rules = earlier ++ r :: later →
      Derives g text (.sequence earlier) p (.accepted q) → ∃ o, Matches g text r q o) :
    ∃ o, Derives g text (.sequence rules) p o := by
  suffices hrest : ∀ earlier rest q, rules = earlier ++ rest →
      Derives g text (.sequence earlier) p (.accepted q) → ∃ o, Derives g text (.sequence rest) q o from
    hrest [] rules p rfl .sequence_nil
  intro earlier rest
  induction rest generalizing earlier with
  | nil => exact fun q _ _ => ⟨_, .sequence_nil⟩
  | cons r rest ih =>
      intro q hrules hearlier
      obtain ⟨o, hr⟩ := h earlier r rest q hrules hearlier
      cases o with
      | rejected => exact ⟨_, .sequence_reject hr⟩
      | accepted e =>
          have hone : Derives g text (.sequence [r]) q (.accepted e) := .sequence_cons hr .sequence_nil
          obtain ⟨o, hrest⟩ := ih (earlier ++ [r]) e (by simp [hrules]) (hearlier.append hone)
          exact ⟨o, .sequence_cons hr hrest⟩

theorem Derives.exists_choice {alternatives p}
    (h : ∀ a ∈ alternatives, ∃ r, g.alternativeTarget a = some r ∧ ∃ o, Matches g text r p o) :
    ∃ o, Derives g text (.choice alternatives) p o := by
  induction alternatives with
  | nil => exact ⟨_, .choice_nil⟩
  | cons a rest ih =>
      obtain ⟨⟨r, ha, o, hr⟩, hrest⟩ := List.forall_mem_cons.mp h
      cases o with
      | accepted e => exact ⟨_, .choice_first ha hr⟩
      | rejected =>
          obtain ⟨o, ht⟩ := ih hrest
          exact ⟨o, .choice_next ha hr ht⟩

/-- A repetition of something that consumes ends, since each round leaves less of the text. -/
theorem Derives.exists_star {i p} (hp : p ≤ text.length) (hi : ¬ g.Nullable (g.body i))
    (h : ∀ q, p ≤ q → q ≤ text.length → ∃ o, Matches g text i q o) :
    ∃ e, Derives g text (.star i) p (.accepted e) := by
  induction hn : text.length - p using Nat.strong_induction_on generalizing p with
  | _ n ih =>
      obtain ⟨o, hm⟩ := h p (Nat.le_refl _) hp
      cases o with
      | rejected => exact ⟨p, .star_stop hm⟩
      | accepted q =>
          have hlt : p < q := Derives.lt_of_not_nullable hm hi
          have hq : q ≤ text.length := hm.end_le hp
          obtain ⟨e, ht⟩ := ih (text.length - q) (by omega) hq
            (fun q' hle => h q' (Nat.le_trans (Nat.le_of_lt hlt) hle)) rfl
          exact ⟨e, .star_more hm ht⟩

/-- A body has an outcome if the rules it left-calls have one here and its operands have one at later
positions. -/
theorem Derives.exists_outcome {b p} (hp : p ≤ text.length)
    (hdefined : ∀ a ∈ b.alternatives, (g.alternativeTarget a).isSome)
    (hconsuming : ∀ i, b.repeated? = some i → ¬ g.Nullable (g.body i))
    (here : ∀ r, g.LeftCalls b r → ∃ o, Matches g text r p o)
    (later : ∀ r ∈ g.operands b, ∀ q, p < q → q ≤ text.length → ∃ o, Matches g text r q o) :
    ∃ o, Derives g text b p o := by
  have hitem : ∀ i, b.operand? = some i → ∀ q, p ≤ q → q ≤ text.length → ∃ o, Matches g text i q o := by
    intro i hi q hpq hq
    rcases Nat.eq_or_lt_of_le hpq with rfl | hlt
    · exact here i (.operand hi)
    · exact later i (Grammar.mem_operands_of_operand? hi) q hlt hq
  cases b with
  | literal cs =>
      by_cases h : cs <+: text.rest p
      · exact ⟨_, .literal h⟩
      · exact ⟨_, .literal_reject h⟩
  | predicate d test =>
      by_cases h : ∃ c, text.char? p = some c ∧ test c = true
      · obtain ⟨c, hc, ht⟩ := h
        exact ⟨_, .predicate hc ht⟩
      · exact ⟨_, .predicate_reject fun c hc => Bool.eq_false_of_not_eq_true fun ht => h ⟨c, hc, ht⟩⟩
  | sequence rules =>
      apply Derives.exists_sequence
      intro earlier r rest q hrules hearlier
      -- the children before `r` either have all stayed where they are, or have consumed something
      rcases Nat.eq_or_lt_of_le hearlier.start_le with rfl | hlt
      · cases hearlier.nullable rfl with
        | sequence hnullable => exact here r (.child hrules hnullable)
      · exact later r (by simp [Grammar.operands, hrules]) q hlt (hearlier.end_le hp)
  | choice alternatives =>
      apply Derives.exists_choice
      intro a ha
      obtain ⟨r, hr⟩ := Option.isSome_iff_exists.mp (hdefined a ha)
      exact ⟨r, hr, here r (.alternative ha hr)⟩
  | star i =>
      obtain ⟨e, h⟩ := Derives.exists_star hp (hconsuming i rfl) (hitem i rfl)
      exact ⟨_, h⟩
  | plus i =>
      obtain ⟨o, hi⟩ := here i (.operand rfl)
      cases o with
      | rejected => exact ⟨_, .plus_reject hi⟩
      | accepted q =>
          obtain ⟨e, ht⟩ := Derives.exists_star (hi.end_le hp) (hconsuming i rfl)
            fun q' hle => hitem i rfl q' (Nat.le_trans hi.start_le hle)
          exact ⟨_, .plus hi ht⟩
  | option i =>
      obtain ⟨o, hi⟩ := here i (.operand rfl)
      cases o with
      | rejected => exact ⟨_, .option_none hi⟩
      | accepted q => exact ⟨_, .option_some hi⟩
  | and i =>
      obtain ⟨o, hi⟩ := here i (.operand rfl)
      cases o with
      | rejected => exact ⟨_, .and_reject hi⟩
      | accepted q => exact ⟨_, .and hi⟩
  | not i =>
      obtain ⟨o, hi⟩ := here i (.operand rfl)
      cases o with
      | rejected => exact ⟨_, .not hi⟩
      | accepted q => exact ⟨_, .not_reject hi⟩

/-! ## Rules and parsers -/

/-- The induction is on what is left of the text, and for one position on the order of left calls. -/
theorem Grammar.WellFormed.matches {root r p} (wf : g.WellFormed root) (hr : g.Reaches root r)
    (hp : p ≤ text.length) : ∃ o, Matches g text r p o := by
  induction hn : text.length - p using Nat.strong_induction_on generalizing r p with
  | _ n ih =>
      induction wf.acc hr with
      | intro r _ ihr =>
          apply Derives.exists_outcome hp (wf.complete r hr) (wf.consuming r · hr)
          · intro s hs
            exact ihr s hs (hr.tail hs.mem_operands)
          · intro s hs q hpq hq
            exact ih (text.length - q) (by omega) (hr.tail hs) hq rfl

/-- Over a well-formed grammar, recognition answers from any position of any text, with any confirmed
table or none, and a parse by any parser over it comes to a value or to a rejection. -/
theorem wellFormed_finishes :
    (∀ (g : Grammar V) r, g.WellFormed r → ∀ text (run : Run V), run.position ≤ text.length →
      run.bindings.Sound g → run.memo.Confirmed g text run.bindings →
      ∀ fuel, g.Ample text fuel → Answers (accept g text fuel r) run) ∧
    ∀ (w : Workspace V) known p, Assembled w known → p ∈ known → w.grammar.WellFormed p.rule →
      ∀ text (run : Run V), run.position ≤ text.length → run.bindings.Sound w.grammar →
      run.memo.Confirmed w.grammar text run.bindings → ∀ fuel, w.grammar.Ample text fuel →
      Ensures (parseAt w.grammar text fuel p) run (fun _ _ => True)
        fun halt _ => halt = .failed .rejected := by
  constructor
  · intro g r wf text run inside sound confirmed fuel hl
    obtain ⟨o, hm⟩ := wf.matches .refl inside
    exact hm.answers ⟨inside, sound, (Memo.confirmed_iff_correct sound).mp confirmed⟩ hl
  · intro w known p assembled hp wf text run inside sound confirmed fuel hl
    have good : run.Good w.grammar text :=
      ⟨inside, sound, (Memo.confirmed_iff_correct sound).mp confirmed⟩
    obtain ⟨o, hm⟩ := wf.matches .refl inside
    obtain ⟨y, -, hreturns⟩ :=
      (assembled.consistent.aligned hp).parses assembled.consistent.aligned_slots hl inside hm
    cases y with
    | none => exact (hreturns run good rfl).imp (fun _ _ => False.elim) fun _ _ h => h.2.1
    | some x => exact (hreturns run good rfl).imp (fun _ _ _ => trivial) fun _ _ => False.elim

/-- The lambda calculus, though its rules are mutually recursive. -/
theorem wellFormed_finishes_lambda :
    let g := Lambda.workspace.grammar
    let text := Buffer.load 0 "((λx.x)y"
    g.WellFormed Lambda.root.rule ∧ g.Ample text 200 ∧
      Answers (accept g text 200 Lambda.root.rule) (.begin 1 (.empty .full) .empty) ∧
      Ensures (parseAt g text 200 Lambda.root) (.begin 0 (.empty .none) .empty) (fun _ _ => True)
        fun halt _ => halt = .failed .rejected := by
  intro g text
  -- what starts with a terminal ranks below what starts with an operand
  have ranked : g.Ranked [] ([0, 5, 0, 0, 1, 0, 2, 3, 4, 4, 0, 1, 1, 0, 2, 2][·]?.getD 0) :=
    ⟨by decide +kernel, by decide +kernel, by decide +kernel⟩
  have wf : g.WellFormed Lambda.root.rule :=
    ranked.wellFormed (Grammar.complete_of_targets (by decide +kernel) _)
  have ample : g.Ample text 200 := by
    unfold Grammar.Ample
    decide +kernel
  obtain ⟨known, assembled, hroot⟩ := Lambda.assembled
  refine ⟨wf, ample, ?_, ?_⟩
  · exact wellFormed_finishes.1 g _ wf text (.begin 1 (.empty .full) .empty) (by decide +kernel) .empty
      Memo.Every.empty _ ample
  · exact wellFormed_finishes.2 _ known _ assembled hroot wf text (.begin 0 (.empty .none) .empty)
      (Nat.zero_le _) .empty Memo.Every.empty _ ample

end Packrat
