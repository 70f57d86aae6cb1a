import Packrat.Proofs.OnePass
import Packrat.Proofs.ParseTree
import Packrat.Proofs.Quiet

/-!
# Construction follows the parse tree

A parse that gives a value has built a parse tree: the value and the end are those of the tree, and the
functions it has applied to values are those of the nodes, in postorder. A parse that is rejected has
applied none (`parseAt_follows`).
-/

namespace Packrat

open Engine

variable {V α : Type} {g : Grammar V} {text : Buffer} {run mid after : Run V} {p : Parser V}
  {limit level : Nat}

/-! ## Trees and runs -/

/-- The run `after` comes from `run` by building the tree, with its value. -/
structure Run.Built (g : Grammar V) (text : Buffer) (p : Parser V) (run : Run V) (t : ParseTree V) (v : V)
    (after : Run V) : Prop where
  parsed : Parsed g text p run.position t
  value : t.value = v
  stop : t.stop = after.position
  actions : after.actions = t.actions.reverse ++ run.actions
  good : after.Good g text

/-- The run `after` comes from `run` by trying a parser that is rejected. -/
structure Run.Refused (g : Grammar V) (text : Buffer) (p : Parser V) (run after : Run V) : Prop where
  yields : Yields g text p run.position none
  position : after.position = run.position
  actions : after.actions = run.actions
  good : after.Good g text

/-- Whatever value the act gives, it has built a tree of the parser, and if it is rejected, it has done
nothing. -/
def Follows (g : Grammar V) (text : Buffer) (p : Parser V) (act : Engine V V) : Prop :=
  ∀ run : Run V, run.Good g text → Ensures act run (fun v after => ∃ t, run.Built g text p t v after)
    fun halt after => halt = .failed .rejected → run.Refused g text p after

/-- Where the rule of the parser matches, whatever value the act gives, it has built a tree of the
parser. -/
def Constructs (g : Grammar V) (text : Buffer) (p : Parser V) (act : Engine V V) : Prop :=
  ∀ run : Run V, run.Good g text → (∃ e, Matches g text p.rule run.position (.accepted e)) →
    Ensures act run (fun v after => ∃ t, run.Built g text p t v after) fun _ _ => True

/-- The act follows whatever parser the slot stands for. -/
def SlotFollows (g : Grammar V) (text : Buffer) (slot : Nat) (act : Engine V V) : Prop :=
  ∀ run : Run V, run.Good g text →
    Ensures act run
      (fun v after => ∃ p, g.parserTarget slot = some p ∧ ∃ t, run.Built g text p t v after)
      fun halt after => halt = .failed .rejected →
        ∃ p, g.parserTarget slot = some p ∧ run.Refused g text p after

theorem attempt_ensures {act : Engine V α} {Q : α → Run V → Prop} {R : Run V → Prop}
    (h : Ensures act run Q fun halt after => halt = .failed .rejected → R after) :
    Ensures (attempt act) run (fun x after => x.elim (R after) (Q · after)) fun _ _ => True := by
  unfold Ensures at h ⊢
  unfold attempt
  cases hr : act run with
  | ok a after =>
      simp only [hr] at h ⊢
      exact h
  | error halt after =>
      simp only [hr] at h
      cases halt with
      | failed e =>
          cases e with
          | rejected => exact h rfl
          | cursor => trivial
      | _ => trivial

/-! ## Two passes -/

/-- Once the rule has matched, the second pass is never rejected. -/
theorem secondPass_stands {e} (hg : g.Aligned) (hp : p.Aligned g) (good : run.Good g text)
    (hm : Matches g text p.rule run.position (.accepted e)) :
    Ensures (secondPass g text limit level p) run (fun _ _ => True)
      fun halt _ => halt ≠ .failed .rejected := by
  cases hr : secondPass g text limit level p run with
  | ok v after => exact .done hr trivial
  | error halt after =>
      refine .fail hr ?_
      rintro rfl
      -- with more fuel it would be rejected too, but there it gives a value
      obtain ⟨more, hl, hle⟩ := g.exists_ample text (limit + level)
      have hlimit : limit ≤ more := Nat.le_trans (Nat.le_add_right ..) hle
      have hlevel : level ≤ more := Nat.le_trans (Nat.le_add_left ..) hle
      obtain ⟨v, -, hgives⟩ := (hp.constructs hg hl good.inside hm).of_accepted hg hp hm
      obtain ⟨v', after', hok, -⟩ := (hgives run good rfl).exists_ok
      have hmore : secondPass g text more more p run = secondPass g text limit level p run :=
        build_refines text (accept_refines g text hlimit) (parseSlot_refines g text hlimit hlevel) hlimit p run
          (.of_error hr nofun)
      cases hok.symm.trans (hmore.trans hr)

theorem bothPasses_follows (hg : g.Aligned) (hp : p.Aligned g)
    (hbuild : Constructs g text p (secondPass g text limit level p)) :
    Follows g text p (bothPasses g text limit level p) := by
  intro run good
  apply Ensures.step position_eq
  refine (((accept_recognizes limit p.rule run good).and (accept_quiet run)).imp_right ?_).bind ?_
  · exact fun halt _ ⟨hstops, _⟩ he => absurd he (hstops.ne_failed _)
  · rintro x mid ⟨hm, hquiet⟩
    have hback : (mid.moveTo run.position).Good g text := hm.good.moveTo good.inside
    cases x with
    | true =>
        have hmatch : Matches g text p.rule run.position (.accepted mid.position) := hm.outcome
        have hstands : Ensures (secondPass g text limit level p) (mid.moveTo run.position) _ _ :=
          secondPass_stands hg hp hback hmatch
        have hsecond := (hbuild _ hback ⟨_, hmatch⟩).and hstands
        refine .step position_eq (.step (rewind_eq good.inside) ((hsecond.imp_right ?_).bind ?_))
        · exact fun halt _ ⟨_, hne⟩ he => absurd he hne
        · rintro v built ⟨⟨t, ht⟩, -⟩
          have hstop : t.stop = mid.position := by
            have := ht.parsed.yields.outcome_eq hg hp hmatch
            simpa [Yield.outcome] using this
          refine .step (jump_eq hm.good.inside) (.pure ⟨t, ht.parsed, ht.value, hstop, ?_, ?_⟩)
          · exact ht.actions.trans (congrArg _ hquiet)
          · exact ht.good.moveTo hm.good.inside
    | false =>
        refine .step (rewind_eq good.inside) (.throw fun _ => ⟨?_, rfl, hquiet, hback⟩)
        obtain ⟨y, hy, -⟩ := hp.constructs hg (Nat.lt_succ_self _) good.inside hm.outcome
        cases Yield.outcome_eq_rejected_iff.mp (hy.outcome_eq hg hp hm.outcome)
        exact hy

/-! ## Parsers without parts -/

theorem accept_quietly {r : RuleId} (good : run.Good g text) :
    Ensures (accept g text limit r) run
      (fun x after => Recognized g text r run x after ∧ after.actions = run.actions) fun _ _ => True :=
  ((accept_recognizes_or_halts r run good).and (accept_quiet run)).imp_right fun _ _ _ => trivial

theorem silent_constructs {r : RuleId} {v : V} :
    Constructs g text (.silent r v) (secondPass g text limit level (.silent r v)) := by
  rintro run good -
  apply (accept_quietly good).bind
  rintro x after ⟨hm, hquiet⟩
  cases x with
  | true => exact .pure ⟨_, .silent hm.outcome, rfl, rfl, hquiet, hm.good⟩
  | false => exact .throw trivial

theorem character_constructs {r : RuleId} {embed : Char → V}
    (hp : (Parser.character r embed).Aligned g) :
    Constructs g text (.character r embed) (secondPass g text limit level (.character r embed)) := by
  rintro run good ⟨e, hm⟩
  obtain ⟨d, test, hb⟩ := hp.of_character
  have hd : Derives g text (.predicate d test) run.position (.accepted e) := hb ▸ hm
  cases hd with
  | predicate hc ht =>
      obtain ⟨hlt, -⟩ := Buffer.char?_eq_some_iff.mp hc
      refine .step ((bind_of_ok (advance_eq_some hc)).trans rfl) (.pure ?_)
      exact ⟨_, .character hb hc ht, rfl, rfl, rfl, good.moveTo hlt⟩

theorem characters_constructs {r : RuleId} {embed : List Char → V}
    (hp : (Parser.characters r embed).Aligned g) :
    Constructs g text (.characters r embed) (secondPass g text limit level (.characters r embed)) := by
  rintro run good -
  obtain ⟨i, d, test, hb, hi⟩ := hp.of_characters
  apply Ensures.step position_eq
  apply (accept_quietly good).bind
  rintro x after ⟨hm, hquiet⟩
  cases x with
  | false => exact .throw trivial
  | true =>
      have hplus : Derives g text (.plus i) run.position (.accepted after.position) := hb ▸ hm.outcome
      cases hcs : (text.rest run.position).takeWhile test with
      | nil => cases hplus.unique (.plus_reject (.predicate_of_nil hi hcs))
      | cons c cs =>
          have hstop : after.position = run.position + (c :: cs).length := by
            simpa using hplus.unique (.plus_predicate hi hcs)
          have hchars := Buffer.substring_takeWhile hcs (hstop ▸ hm.good.inside)
          apply Ensures.step position_eq
          rw [hstop, hchars]
          exact .pure ⟨_, .characters hb hi hcs (by simp), rfl, hstop.symm, hquiet, hm.good⟩

/-! ## Parsers with parts -/

theorem Follows.gives {act : Engine V V} (h : Follows g text p act) (good : run.Good g text) :
    Ensures act run (fun v after => ∃ t, run.Built g text p t v after) fun _ _ => True :=
  (h run good).imp_right fun _ _ _ => trivial

section

variable {a b item : Parser V} {r : RuleId} {act act' : Engine V V}

theorem pair_builds_tree {label combine} (ha : Follows g text a act) (hb : Follows g text b act')
    (good : run.Good g text) :
    Ensures (do let x ← act; let y ← act'; perform label; return combine x y) run
      (fun v after => ∃ t, run.Built g text (.pair r a b label combine) t v after) fun _ _ => True := by
  apply (ha.gives good).bind
  rintro x mid ⟨ta, hta⟩
  apply (hb.gives hta.good).bind
  rintro y after ⟨tb, htb⟩
  have hparsed := htb.parsed
  rw [← hta.stop] at hparsed
  refine .step perform_eq (.pure ⟨_, .pair hta.parsed hparsed, ?_, htb.stop, ?_, ?_⟩)
  · simp [hta.value, htb.value]
  · simp [htb.actions, hta.actions]
  · exact ⟨htb.good.inside, htb.good.sound, htb.good.correct⟩

theorem firstOf_builds_tree {parse : Nat → Engine V V} {slots : List Nat}
    (h : ∀ slot, SlotFollows g text slot (parse slot)) (good : run.Good g text) :
    Ensures (firstOf parse slots) run (fun v after => ∃ t, run.Built g text (.choice r slots) t v after)
      fun _ _ => True := by
  induction slots generalizing run with
  | nil => exact .throw trivial
  | cons slot rest ih =>
      apply (attempt_ensures (h slot run good)).bind
      intro x mid hx
      cases x with
      | some v =>
          obtain ⟨p, hp, t, ht⟩ := hx
          refine .pure ⟨_, .choice_first hp ht.parsed, ht.value, ht.stop, ?_, ht.good⟩
          simpa using ht.actions
      | none =>
          obtain ⟨p, hp, hrefused⟩ := hx
          apply (ih hrefused.good).imp_left
          rintro v after ⟨t, ht⟩
          have hparsed := ht.parsed
          rw [hrefused.position] at hparsed
          refine ⟨_, .choice_next hp hrefused.yields hparsed, ht.value, ht.stop, ?_, ht.good⟩
          rw [ht.actions, hrefused.actions, hparsed.actions_eq]
          simp

/-- The items that are gathered are the parts of the tree of a repetition, whatever is made of their
values. -/
theorem gather_builds_tree (h : Follows g text item act) (good : run.Good g text) :
    Ensures (gather act limit) run
      (fun xs after => ∀ r collect, ∃ t, run.Built g text (.star r item collect) t (collect xs) after)
      fun _ _ => True := by
  induction limit generalizing run with
  | zero => exact .throw trivial
  | succ limit ih =>
      apply (attempt_ensures (h run good)).bind
      intro x mid hx
      cases x with
      | some v =>
          obtain ⟨t, ht⟩ := hx
          apply (ih ht.good).bind
          intro xs after hrest
          refine .pure fun r collect => ?_
          obtain ⟨ts, hts⟩ := hrest r fun xs => collect (t.value :: xs)
          have hparsed := hts.parsed
          rw [← ht.stop] at hparsed
          refine ⟨_, .star_more ht.parsed hparsed, ?_, hts.stop, ?_, hts.good⟩
          · rw [← ht.value]
            exact hts.value
          · rw [hts.actions, hparsed.actions_eq, ht.actions]
            simp
      | none =>
          exact .pure fun r collect =>
            ⟨_, .star_stop hx.yields, rfl, hx.position.symm, hx.actions, hx.good⟩

theorem plus_builds_tree {collect} (h : Follows g text item act) (good : run.Good g text) :
    Ensures (do let x ← act; let xs ← gather act limit; return collect (x :: xs)) run
      (fun v after => ∃ t, run.Built g text (.plus r item collect) t v after) fun _ _ => True := by
  apply (h.gives good).bind
  rintro x mid ⟨t, ht⟩
  apply (gather_builds_tree h ht.good).bind
  intro xs after hrest
  obtain ⟨ts, hts⟩ := hrest r fun xs => collect (t.value :: xs)
  have hparsed := hts.parsed
  rw [← ht.stop] at hparsed
  refine .pure ⟨_, .plus ht.parsed hparsed, ?_, hts.stop, ?_, hts.good⟩
  · rw [← ht.value]
    exact hts.value
  · rw [hts.actions, hparsed.actions_eq, ht.actions]
    simp

theorem option_builds_tree {embed} (h : Follows g text item act) (good : run.Good g text) :
    Ensures (do return embed (← attempt act)) run
      (fun v after => ∃ t, run.Built g text (.option r item embed) t v after) fun _ _ => True := by
  apply (attempt_ensures (h run good)).bind
  intro x after hx
  cases x with
  | some v =>
      obtain ⟨t, ht⟩ := hx
      refine .pure ⟨_, .option_some ht.parsed, ?_, ht.stop, ?_, ht.good⟩
      · simp [ht.value]
      · simpa using ht.actions
  | none => exact .pure ⟨_, .option_none hx.yields, rfl, hx.position.symm, hx.actions, hx.good⟩

end

/-! ## All parsers -/

theorem secondPass_constructs (hg : g.Aligned) (hp : p.Aligned g)
    (hslots : ∀ slot, SlotFollows g text slot (parseSlot g text limit level slot)) :
    Constructs g text p (secondPass g text limit level p) := by
  induction p with
  | silent r v => exact silent_constructs
  | character r embed => exact character_constructs hp
  | characters r embed => exact characters_constructs hp
  | pair r a b label combine iha ihb =>
      have ha := hp.operand a List.mem_cons_self
      have hb := hp.operand b (List.mem_cons_of_mem _ List.mem_cons_self)
      exact fun run good _ =>
        pair_builds_tree (bothPasses_follows hg ha (iha ha)) (bothPasses_follows hg hb (ihb hb)) good
  | choice r slots => exact fun run good _ => firstOf_builds_tree hslots good
  | star r item collect ih =>
      have hi := hp.operand item List.mem_cons_self
      exact fun run good _ => (gather_builds_tree (bothPasses_follows hg hi (ih hi)) good).bind
        fun xs after h => .pure (h r collect)
  | plus r item collect ih =>
      have hi := hp.operand item List.mem_cons_self
      exact fun run good _ => plus_builds_tree (bothPasses_follows hg hi (ih hi)) good
  | option r item embed ih =>
      have hi := hp.operand item List.mem_cons_self
      exact fun run good _ => option_builds_tree (bothPasses_follows hg hi (ih hi)) good
  | map inner label transform ih =>
      intro run good hm
      apply (ih (hp.operand inner List.mem_cons_self) run good hm).bind
      rintro v after ⟨t, ht⟩
      refine .step perform_eq (.pure ⟨_, .map ht.parsed, ?_, ht.stop, ?_, ?_⟩)
      · simp [ht.value]
      · simp [ht.actions]
      · exact ⟨ht.good.inside, ht.good.sound, ht.good.correct⟩
  | spanned inner embed ih =>
      intro run good hm
      apply Ensures.step position_eq
      apply (ih (hp.operand inner List.mem_cons_self) run good hm).bind
      rintro v after ⟨t, ht⟩
      have hspan : Span.make text run.position after.position = .ok ⟨text, run.position, t.stop⟩ := by
        rw [ht.stop]
        exact if_pos ⟨ht.stop ▸ ht.parsed.bounds.1, ht.good.inside⟩
      apply Ensures.step position_eq
      rw [hspan]
      refine .pure ⟨_, .spanned ht.parsed, ?_, ht.stop, ?_, ht.good⟩
      · simp [ht.value]
      · simpa using ht.actions
  | deferred r slot =>
      intro run good _
      apply (hslots slot run good).imp
      · rintro v after ⟨p, hp, t, ht⟩
        refine ⟨_, .deferred hp ht.parsed, ht.value, ht.stop, ?_, ht.good⟩
        simpa using ht.actions
      · exact fun _ _ _ => trivial

theorem parseSlot_follows (hg : g.Aligned) (slot : Nat) :
    SlotFollows g text slot (parseSlot g text limit level slot) := by
  induction level generalizing slot with
  | zero =>
      intro run good
      exact .throw nofun
  | succ level ih =>
      intro run good
      unfold parseSlot
      refine (((resolve_ensures (Grammar.resolveParser_finds slot) good).and (resolve_quiet run)).imp_right
        ?_).bind ?_
      · rintro halt _ ⟨⟨⟨name, rfl⟩, -⟩, -⟩ he
        cases he
      · rintro p found ⟨⟨htarget, hfound, hpos, -⟩, hquiet⟩
        have hp := hg slot p htarget
        have hboth := bothPasses_follows hg hp (secondPass_constructs hg hp ih) found hfound
        apply hboth.imp
        · rintro v after ⟨t, ht⟩
          have hactions : after.actions = t.actions.reverse ++ run.actions :=
            ht.actions.trans (congrArg _ hquiet)
          exact ⟨p, htarget, t, hpos ▸ ht.parsed, ht.value, ht.stop, hactions, ht.good⟩
        · intro halt after hrefused he
          obtain ⟨hy, hpos', hactions, hgood⟩ := hrefused he
          exact ⟨p, htarget, hpos ▸ hy, hpos'.trans hpos, hactions.trans hquiet, hgood⟩

theorem construct_constructs {fuel : Nat} (hg : g.Aligned) (hp : p.Aligned g) :
    Constructs g text p (construct g text fuel p) :=
  secondPass_constructs hg hp (parseSlot_follows hg)

theorem parseAt_follows {fuel : Nat} (hg : g.Aligned) (hp : p.Aligned g) :
    Follows g text p (parseAt g text fuel p) :=
  bothPasses_follows hg hp (construct_constructs hg hp)

end Packrat
