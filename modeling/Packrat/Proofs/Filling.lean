import Packrat.Proofs.Recognition

/-!
# What recognition leaves in a table

Evaluating a rule consults the table about the rules it asks for, unless it is a lookahead, which runs
without the table. A table is closed if it knows everything that evaluating what it knows has consulted it
about. From a closed table recognition leaves a closed table, which knows the rule at its position and
what has been consulted for it, at any depth, and else only what was known before (`accept_visits`).
-/

namespace Packrat

open Relation (ReflTransGen)

variable {V : Type} {g : Grammar V} {text : Buffer}

/-! ## Consulting a table -/

/-- Lookaheads run without the table. -/
def Body.isLookahead : Body → Bool
  | .and _ | .not _ => true
  | _ => false

/-- Matching the body from the position consults the table about the key. -/
def Consults (g : Grammar V) (text : Buffer) (b : Body) (p : Nat) (k : Memo.Key) : Prop :=
  b.isLookahead = false ∧ Asks g text b p k

/-- Evaluating the second key consults the table about the first. -/
abbrev ConsultedBy (g : Grammar V) (text : Buffer) (k' k : Memo.Key) : Prop :=
  Consults g text (g.body k.rule) k.start k'

/-- Matching the body from the position consults the table about the key at some depth. -/
def Visits (g : Grammar V) (text : Buffer) (b : Body) (p : Nat) (k : Memo.Key) : Prop :=
  ∃ top, Consults g text b p top ∧ ReflTransGen (ConsultedBy g text) k top

namespace Asks

variable {r : RuleId} {rest : List RuleId} {alternatives : List Alternative} {a : Alternative} {p q : Nat}
  {k : Memo.Key}

theorem sequence_cons_iff (hr : Matches g text r p (.accepted q)) :
    Asks g text (.sequence (r :: rest)) p k ↔ k = ⟨r, p⟩ ∨ Asks g text (.sequence rest) q k := by
  constructor
  · intro h
    cases h with
    | operand h => cases h
    | sequence_head => exact .inl rfl
    | sequence_tail hr' ht =>
        cases hr.unique hr'
        exact .inr ht
  · rintro (rfl | h)
    · exact .sequence_head
    · exact .sequence_tail hr h

theorem sequence_reject_iff (hr : Matches g text r p .rejected) :
    Asks g text (.sequence (r :: rest)) p k ↔ k = ⟨r, p⟩ := by
  constructor
  · intro h
    cases h with
    | operand h => cases h
    | sequence_head => rfl
    | sequence_tail hr' _ => cases hr.unique hr'
  · rintro rfl
    exact .sequence_head

theorem choice_first_iff (ha : g.alternativeTarget a = some r) (hr : Matches g text r p (.accepted q)) :
    Asks g text (.choice (a :: alternatives)) p k ↔ k = ⟨r, p⟩ := by
  constructor
  · intro h
    cases h with
    | operand h => cases h
    | choice_head ha' =>
        cases ha.symm.trans ha'
        rfl
    | choice_tail ha' hr' _ =>
        cases ha.symm.trans ha'
        cases hr.unique hr'
  · rintro rfl
    exact .choice_head ha

theorem choice_next_iff (ha : g.alternativeTarget a = some r) (hr : Matches g text r p .rejected) :
    Asks g text (.choice (a :: alternatives)) p k ↔
      k = ⟨r, p⟩ ∨ Asks g text (.choice alternatives) p k := by
  constructor
  · intro h
    cases h with
    | operand h => cases h
    | choice_head ha' =>
        cases ha.symm.trans ha'
        exact .inl rfl
    | choice_tail _ _ ht => exact .inr ht
  · rintro (rfl | h)
    · exact .choice_head ha
    · exact .choice_tail ha hr h

theorem star_more_iff (hr : Matches g text r p (.accepted q)) :
    Asks g text (.star r) p k ↔ k = ⟨r, p⟩ ∨ Asks g text (.star r) q k := by
  constructor
  · intro h
    cases h with
    | operand h =>
        cases h
        exact .inl rfl
    | star_tail hr' ht =>
        cases hr.unique hr'
        exact .inr ht
  · rintro (rfl | h)
    · exact .operand rfl
    · exact .star_tail hr h

theorem star_stop_iff (hr : Matches g text r p .rejected) :
    Asks g text (.star r) p k ↔ k = ⟨r, p⟩ := by
  constructor
  · intro h
    cases h with
    | operand h =>
        cases h
        rfl
    | star_tail hr' _ => cases hr.unique hr'
  · rintro rfl
    exact .operand rfl

theorem plus_iff (hr : Matches g text r p (.accepted q)) :
    Asks g text (.plus r) p k ↔ k = ⟨r, p⟩ ∨ Asks g text (.star r) q k := by
  constructor
  · intro h
    cases h with
    | operand h =>
        cases h
        exact .inl rfl
    | plus_tail hr' ht =>
        cases hr.unique hr'
        exact .inr ht
  · rintro (rfl | h)
    · exact .operand rfl
    · exact .plus_tail hr h

theorem plus_reject_iff (hr : Matches g text r p .rejected) :
    Asks g text (.plus r) p k ↔ k = ⟨r, p⟩ := by
  constructor
  · intro h
    cases h with
    | operand h =>
        cases h
        rfl
    | plus_tail hr' _ => cases hr.unique hr'
  · rintro rfl
    exact .operand rfl

theorem option_iff : Asks g text (.option r) p k ↔ k = ⟨r, p⟩ := by
  constructor
  · intro h
    cases h with
    | operand h =>
        cases h
        rfl
  · rintro rfl
    exact .operand rfl

end Asks

/-! ## Filling a table -/

namespace Memo

/-- The table `m'` knows what `m` knows and the keys in `new`, and nothing else. -/
structure Fills (new : Key → Prop) (m m' : Memo) : Prop where
  strategy : m'.strategy = m.strategy
  knows : ∀ k, m'.Knows k ↔ m.Knows k ∨ new k

/-- What evaluating the known keys consults the table about is known. -/
structure Closed (g : Grammar V) (text : Buffer) (m : Memo) : Prop where
  full : m.strategy = .full
  consulted : ∀ k k', m.Knows k → ConsultedBy g text k' k → m.Knows k'

variable {m m' m'' : Memo} {k k' : Key} {new new' : Key → Prop}

theorem knows_lookup : (m.lookup k).2.Knows k' ↔ m.Knows k' := by
  simp only [Knows, get?_lookup]

theorem knows_record {o : Outcome} (h : m.strategy = .full) :
    (m.record k o).Knows k' ↔ m.Knows k' ∨ k' = k := by
  simp only [Knows, get?_record h]
  split
  · next he => simp [he.2]
  · next hn =>
      constructor
      · exact .inl
      · rintro (hk | rfl)
        · exact hk
        · by_contra hk
          exact hn ⟨by simpa using hk, rfl⟩

theorem knows_of_lookup {o : Outcome} (h : (m.lookup k).1 = some o) : m.Knows k := by
  rw [lookup_fst] at h
  split at h
  · exact Option.isSome_of_mem h
  · cases h

namespace Fills

protected theorem refl : Fills (fun _ => False) m m := ⟨rfl, fun k => by simp⟩

/-- What is known already may or may not be among the new keys. -/
theorem congr (h : Fills new m m') (hn : ∀ k, ¬ m.Knows k → (new k ↔ new' k)) : Fills new' m m' where
  strategy := h.strategy
  knows k := by
    rw [h.knows]
    by_cases hk : m.Knows k
    · simp only [hk, true_or]
    · simp only [hk, hn k hk]

protected theorem trans (h : Fills new m m') (h' : Fills new' m' m'') :
    Fills (fun k => new k ∨ new' k) m m'' :=
  ⟨h'.strategy.trans h.strategy, fun k => by rw [h'.knows, h.knows, or_assoc]⟩

theorem lookup : Fills (fun _ => False) m (m.lookup k).2 :=
  ⟨strategy_lookup, fun _ => by rw [knows_lookup, or_false]⟩

theorem record {o : Outcome} (h : m.strategy = .full) : Fills (· = k) m (m.record k o) :=
  ⟨strategy_record, fun _ => knows_record h⟩

theorem closed (h : Fills new m m') (hm : m.Closed g text)
    (hn : ∀ k k', new k → ConsultedBy g text k' k → m'.Knows k') : m'.Closed g text where
  full := h.strategy.trans hm.full
  consulted k k' hk hk' := by
    rcases (h.knows k).mp hk with hold | hnew
    · exact (h.knows k').mpr (.inl (hm.consulted k k' hold hk'))
    · exact hn k k' hnew hk'

end Fills

namespace Closed

theorem of_fresh {m : Memo} (h : m = .empty .full ∨ m = .journaling .full) : m.Closed g text := by
  refine ⟨by rcases h with rfl | rfl <;> rfl, fun k k' hk => ?_⟩
  simp [Knows, get?_of_fresh h] at hk

theorem reaches (h : m.Closed g text) (hk : m.Knows k) (hk' : ReflTransGen (ConsultedBy g text) k' k) :
    m.Knows k' := by
  induction hk' using ReflTransGen.head_induction_on with
  | refl => exact hk
  | head hstep _ ih => exact h.consulted _ _ ih hstep

end Closed

end Memo

/-! ## Recognition -/

/-- The run `after` comes from `run` by accepting the rule, and the table has been filled with the rule and
what has been consulted for it. -/
structure Visited (g : Grammar V) (text : Buffer) (r : RuleId) (run : Run V) (x : Bool) (after : Run V) :
    Prop extends Recognized g text r run x after where
  fills : run.memo.Fills (fun k => ReflTransGen (ConsultedBy g text) k ⟨r, run.position⟩) after.memo
  closed : after.memo.Closed g text

/-- Rules are recognized, and from a run with a closed table whatever rule is accepted is visited. -/
structure Visiting (g : Grammar V) (text : Buffer) (acc : RuleId → Engine V Bool) : Prop where
  recognizes : ∀ r, Recognizes g text acc (fun _ => True) r
  visits : ∀ (r : RuleId) (run : Run V), run.Good g text → run.memo.Closed g text →
    Ensures (acc r) run (Visited g text r run) fun _ _ => True

theorem Consults.iff_asks {b p k} (hb : b.isLookahead = false) : Consults g text b p k ↔ Asks g text b p k :=
  and_iff_right hb

namespace Memo

variable {m m' m'' : Memo} {b b' : Body} {p p' : Nat} {k top : Key}

/-- The body asks for one rule and stops there. -/
theorem Fills.stop (h : m.Fills (fun k => ReflTransGen (ConsultedBy g text) k top) m')
    (hb : b.isLookahead = false) (hk : ∀ k, Asks g text b p k ↔ k = top) :
    m.Fills (Visits g text b p) m' := by
  apply h.congr
  intro k _
  simp only [Visits, Consults.iff_asks hb, hk, exists_eq_left]

/-- The body asks for one rule and goes on as another body does. -/
theorem Fills.goOn (h : m.Fills (fun k => ReflTransGen (ConsultedBy g text) k top) m')
    (h' : m'.Fills (Visits g text b' p') m'') (hb : b.isLookahead = false) (hb' : b'.isLookahead = false)
    (hk : ∀ k, Asks g text b p k ↔ k = top ∨ Asks g text b' p' k) : m.Fills (Visits g text b p) m'' := by
  apply (h.trans h').congr
  intro k _
  simp only [Visits, Consults.iff_asks hb, Consults.iff_asks hb', hk, or_and_right, exists_or, exists_eq_left]

/-- A look-up and an evaluation whose outcome is recorded. -/
theorem Fills.evaluation {o : Outcome} (h : (m.lookup k).2.Fills (Visits g text (g.body k.rule) k.start) m')
    (full : m.strategy = .full) :
    m.Fills (fun k' => ReflTransGen (ConsultedBy g text) k' k) (m'.record k o) := by
  have hfull := h.strategy.trans (strategy_lookup.trans full)
  apply ((Fills.lookup.trans h).trans (.record hfull)).congr
  intro k' _
  -- a key is visited for the rule if it is the rule itself or is visited for its body
  rw [ReflTransGen.cases_tail_iff, false_or, or_comm, eq_comm]
  exact or_congr Iff.rfl ⟨fun ⟨top, ha, hk⟩ => ⟨top, hk, ha⟩, fun ⟨top, hk, ha⟩ => ⟨top, ha, hk⟩⟩

theorem Grows.fills (h : m.Grows (Below g text b p) m') (hk : ∀ k, ¬ Asks g text b p k) :
    m.Fills (Visits g text b p) m' where
  strategy := h.strategy
  knows k := by
    have hnone : ¬ Visits g text b p k := fun ⟨top, htop, _⟩ => hk top htop.2
    rw [or_iff_left hnone, Knows, Knows, Option.isSome_iff_exists, Option.isSome_iff_exists]
    constructor
    · rintro ⟨o, ho⟩
      rcases h.adds k o ho with hold | ⟨top, htop, -⟩
      · exact ⟨o, hold⟩
      · exact absurd htop (hk top)
    · rintro ⟨o, ho⟩
      exact ⟨o, h.keeps k o ho⟩

theorem Fills.nothing (h : m' = m) (hk : ∀ k, ¬ Consults g text b p k) : m.Fills (Visits g text b p) m' := by
  subst h
  exact Fills.refl.congr fun k _ => ⟨False.elim, fun ⟨top, htop, _⟩ => hk top htop⟩

end Memo

namespace Engine

variable {acc : RuleId → Engine V Bool} {run : Run V}

theorem matchAll_fills {rules : List RuleId} (h : Visiting g text acc) (good : run.Good g text)
    (closed : run.memo.Closed g text) :
    Ensures (matchAll acc rules) run
      (fun _ after => run.memo.Fills (Visits g text (.sequence rules) run.position) after.memo)
      fun _ _ => True := by
  induction rules generalizing run with
  | nil => exact .pure (.nothing rfl fun k hk => by cases hk.2 with | operand h => cases h)
  | cons r rest ih =>
      apply (h.visits r run good closed).bind
      intro x mid hm
      have hout := hm.outcome
      cases x with
      | false => exact .pure (hm.fills.stop rfl fun _ => Asks.sequence_reject_iff hout)
      | true =>
          apply (ih hm.good hm.closed).imp_left
          exact fun _ after hrest => hm.fills.goOn hrest rfl rfl fun _ => Asks.sequence_cons_iff hout

theorem matchFirst_fills {alternatives : List Alternative} (h : Visiting g text acc)
    (good : run.Good g text) (closed : run.memo.Closed g text) :
    Ensures (matchFirst g text acc run.position alternatives) run
      (fun _ after => run.memo.Fills (Visits g text (.choice alternatives) run.position) after.memo)
      fun _ _ => True := by
  induction alternatives generalizing run with
  | nil => exact .pure (.nothing rfl fun k hk => by cases hk.2 with | operand h => cases h)
  | cons a rest ih =>
      unfold matchFirst
      refine ((resolve_ensures (Grammar.resolveAlternative_finds a) good).imp_right fun _ _ _ =>
        trivial).bind ?_
      rintro r found ⟨ha, hfound, hpos, hmemo⟩
      apply (h.visits r found hfound (hmemo ▸ closed)).bind
      intro x mid hm
      have hout := hm.outcome
      have hfills := hm.fills
      rw [hpos] at hout hfills
      rw [hmemo] at hfills
      cases x with
      | true => exact .pure (hfills.stop rfl fun _ => Asks.choice_first_iff ha hout)
      | false =>
          apply Ensures.step (rewind_eq good.inside)
          apply (ih (hm.good.moveTo good.inside) hm.closed).imp_left
          exact fun _ after hrest => hfills.goOn hrest rfl rfl fun _ => Asks.choice_next_iff ha hout

theorem matchMany_fills {i : RuleId} {limit : Nat} (h : Visiting g text acc) (good : run.Good g text)
    (closed : run.memo.Closed g text) :
    Ensures (matchMany text (acc i) limit) run
      (fun _ after => run.memo.Fills (Visits g text (.star i) run.position) after.memo)
      fun _ _ => True := by
  induction limit generalizing run with
  | zero => exact .throw trivial
  | succ limit ih =>
      refine .step position_eq ((h.visits i run good closed).bind fun x mid hm => ?_)
      have hout := hm.outcome
      cases x with
      | true =>
          apply (ih hm.good hm.closed).imp_left
          exact fun _ after hrest => hm.fills.goOn hrest rfl rfl fun _ => Asks.star_more_iff hout
      | false =>
          exact .done (rewind_eq good.inside) (hm.fills.stop rfl fun _ => Asks.star_stop_iff hout)

theorem lookahead_fills {b : Body} {i : RuleId} (h : Visiting g text acc) (good : run.Good g text)
    (hb : b.isLookahead = true) :
    Ensures (lookahead text (acc i)) run
      (fun _ after => run.memo.Fills (Visits g text b run.position) after.memo) fun _ _ => True := by
  apply (lookahead_ensures (h.recognizes i) good).imp_left
  rintro x after ⟨-, -, -, hmemo⟩
  exact .nothing hmemo fun k hk => by simp [hk.1] at hb

theorem evaluate_fills {b : Body} {limit : Nat} (h : Visiting g text acc) (good : run.Good g text)
    (closed : run.memo.Closed g text) :
    Ensures (evaluate g text acc limit b) run
      (fun _ after => run.memo.Fills (Visits g text b run.position) after.memo) fun _ _ => True := by
  cases b with
  | literal cs =>
      refine (matchChars_evaluates good).imp (fun x after hd => hd.grows.fills fun k hk => ?_) fun _ _ => id
      cases hk with
      | operand h => cases h
  | predicate d test =>
      refine (matchChar_evaluates good).imp (fun x after hd => hd.grows.fills fun k hk => ?_) fun _ _ => id
      cases hk with
      | operand h => cases h
  | sequence rules => exact matchAll_fills h good closed
  | choice alternatives => exact .step position_eq (matchFirst_fills h good closed)
  | star i => exact (matchMany_fills h good closed).bind fun _ _ hfills => .pure hfills
  | plus i =>
      apply (h.visits i run good closed).bind
      intro x mid hm
      have hout := hm.outcome
      cases x with
      | false => exact .pure (hm.fills.stop rfl fun _ => Asks.plus_reject_iff hout)
      | true =>
          refine (matchMany_fills h hm.good hm.closed).bind fun _ after hrest => .pure ?_
          exact hm.fills.goOn hrest rfl rfl fun _ => Asks.plus_iff hout
  | option i =>
      refine .step position_eq ((h.visits i run good closed).bind fun x mid hm => ?_)
      have hfills := hm.fills.stop (b := .option i) rfl fun _ => Asks.option_iff
      cases x with
      | true => exact .pure hfills
      | false => exact .step (rewind_eq good.inside) (.pure hfills)
  | and i => exact lookahead_fills h good rfl
  | not i => exact (lookahead_fills h good rfl).bind fun _ _ hfills => .pure hfills

theorem accept_visits (fuel : Nat) : Visiting g text (accept g text fuel) := by
  induction fuel with
  | zero => exact ⟨fun r run _ => .throw trivial, fun r run _ _ => .throw trivial⟩
  | succ fuel ih =>
      refine ⟨accept_recognizes_or_halts, fun r run good closed => ?_⟩
      suffices hfills : Ensures (accept g text (fuel + 1) r) run (fun _ after => run.memo.Fills
          (fun k => ReflTransGen (ConsultedBy g text) k ⟨r, run.position⟩) after.memo) fun _ _ => True by
        apply ((accept_recognizes_or_halts r run good).and hfills).imp
        · rintro x after ⟨hm, hfills⟩
          refine ⟨hm, hfills, hfills.closed closed fun k k' hk hk' => ?_⟩
          exact (hfills.knows k').mpr (.inr (.head hk' hk))
        · exact fun _ _ _ => trivial
      unfold accept
      refine .step position_eq (.step consult_eq ?_)
      cases hl : (run.memo.lookup ⟨r, run.position⟩).1 with
      | some o =>
          have hhit : run.memo.Fills (fun k => ReflTransGen (ConsultedBy g text) k ⟨r, run.position⟩)
              (run.memo.lookup ⟨r, run.position⟩).2 :=
            Memo.Fills.lookup.congr fun k hnew =>
              ⟨False.elim, fun hk => hnew (closed.reaches (Memo.knows_of_lookup hl) hk)⟩
          cases o with
          | rejected => exact .pure hhit
          | accepted stop =>
              exact .step (rewind_eq ((good.correct.answer hl).2.end_le good.inside)) (.pure hhit)
      | none =>
          have hmiss : Memo.Closed g text (run.memo.lookup ⟨r, run.position⟩).2 :=
            Memo.Fills.lookup.closed closed fun _ _ hnone => hnone.elim
          have hgood : Run.Good g text { run with memo := (run.memo.lookup ⟨r, run.position⟩).2 } :=
            ⟨good.inside, good.sound, good.correct.lookup⟩
          refine (evaluate_fills ih hgood hmiss).bind fun x mid hmid => ?_
          exact .step position_eq (.step remember_eq (.step report_eq (.pure (hmid.evaluation closed.full))))

end Engine

end Packrat
