import Packrat.Proofs.Layers
import Packrat.Proofs.Settling

/-!
# Alternatives and parsers are made in pairs

A parser that chooses among slots has a rule with one alternative for each of them. The alternative is the
rule of the parser that the slot had then, or it takes its rule from the slot later (`Grammar.Twins`). So
whenever the alternative is resolved, the slot is, and to a parser of that rule (`Grammar.Twins.agree`).
-/

namespace Packrat

variable {V : Type}

/-- The alternative was made for the parser slot: it is the rule of a parser that was there already, or it
takes its rule from the slot. -/
inductive Grammar.Twins (g : Grammar V) (b : Bindings V) (slot : Nat) : Alternative → Prop
  | ready {p} (hs : slot < g.parserSlots.size) (hp : g.boundParser? b slot = some p) :
      Twins g b slot (.ready p.rule)
  | deferred {k} (hk : k < g.ruleSlots.size) (h : g.ruleSource k = .parser slot) :
      Twins g b slot (.deferred k)

/-- The slots that a parser chooses from. -/
def Parser.slots? : Parser V → Option (List Nat)
  | .choice _ slots => some slots
  | .deferred _ slot => some [slot]
  | _ => none

/-- The alternatives of the parser's rule were made for the slots that the parser chooses from. -/
def Parser.Twinned (g : Grammar V) (b : Bindings V) (p : Parser V) : Prop :=
  ∀ slots, p.slots? = some slots → ∃ alternatives, g.body p.rule = .choice alternatives ∧
    List.Forall₂ (g.Twins b) slots alternatives

theorem Parser.Twinned.of_slots? {g : Grammar V} {b : Bindings V} {p : Parser V} (h : p.slots? = none) :
    p.Twinned g b := fun _ hs => nomatch h.symm.trans hs

theorem Workspace.Enlarges.twins {w w' : Workspace V} {slot : Nat} {a : Alternative} (h : w.Enlarges w')
    (ht : w.grammar.Twins w.bindings slot a) : w'.grammar.Twins w'.bindings slot a := by
  cases ht with
  | ready hs hp =>
      refine .ready (Nat.lt_of_lt_of_le hs h.grows.parserSlots) ?_
      unfold Grammar.boundParser? at hp ⊢
      rw [h.bindings, h.grows.parserSource slot hs]
      exact hp
  | deferred hk hsource =>
      exact .deferred (Nat.lt_of_lt_of_le hk h.grows.ruleSlots) ((h.grows.ruleSource _ hk).trans hsource)

theorem Grammar.Twins.course {g : Grammar V} {b after : Bindings V} {looks : LookUps V} {slot : Nat}
    {a : Alternative} (h : g.Twins b slot a) (hc : b.Course looks after) : g.Twins after slot a := by
  cases h with
  | ready hs hp => exact .ready hs (Grammar.boundParser?_keeps hc hp)
  | deferred hk hsource => exact .deferred hk hsource

/-- Wherever the rule of the alternative has been found, the parser of the slot has been found, and the
rule is its rule. -/
theorem Grammar.Twins.agree {g : Grammar V} {b : Bindings V} {slot : Nat} {a : Alternative} {r : RuleId}
    (h : g.Twins b slot a) (hb : b.Linked g) (hr : boundRule? b a = some r) :
    ∃ p, g.boundParser? b slot = some p ∧ p.rule = r := by
  cases h with
  | @ready p hs hp =>
      cases hr
      exact ⟨p, hp, rfl⟩
  | deferred hk hsource => exact hb _ slot r hsource hr

namespace Parser.Twinned

variable {p : Parser V}

theorem enlarge {w w' : Workspace V} (h : p.Twinned w.grammar w.bindings) (he : w.Enlarges w')
    (hp : p.rule ≤ w.grammar.rules.size) : p.Twinned w'.grammar w'.bindings := by
  intro slots hs
  obtain ⟨alternatives, hbody, hall⟩ := h slots hs
  exact ⟨alternatives, (he.grows.body _ hp).trans hbody, hall.imp fun _ _ => he.twins⟩

theorem course {g : Grammar V} {b after : Bindings V} {looks : LookUps V} (h : p.Twinned g b)
    (hc : b.Course looks after) : p.Twinned g after := by
  intro slots hs
  obtain ⟨alternatives, hbody, hall⟩ := h slots hs
  exact ⟨alternatives, hbody, hall.imp fun _ _ ht => ht.course hc⟩

end Parser.Twinned

/-! ## Operations that make parsers -/

/-- An operation has made a parser on the way from `w` to `w'`. -/
structure Workspace.Makes (w : Workspace V) (p : Parser V) (w' : Workspace V) : Prop extends
    w.Enlarges w' where
  twinned : p.Twinned w'.grammar w'.bindings

namespace Assembly

variable {w : Workspace V} {known : List (Parser V)}

theorem makes_of_rule {act : Assembly V RuleId} {f : RuleId → Parser V}
    (hact : Ensures act w (fun _ w' => w.Enlarges w') fun _ _ => False)
    (hf : ∀ r, (f r).slots? = none) :
    Ensures (act >>= fun r => pure (f r)) w w.Makes fun _ w' => w' = w :=
  (hact.bind fun r w' hw => .pure (⟨hw, .of_slots? (hf r)⟩ : w.Makes (f r) w')).of_no_error

theorem makes_of_node {b : Body} {f : RuleId → Parser V} (h : w.grammar.Layered)
    (hb : w.grammar.Admits b) (hf : ∀ r, (f r).slots? = none) :
    Ensures (node b >>= fun r => pure (f r)) w w.Makes fun _ w' => w' = w :=
  makes_of_rule ((node_enlarges h hb).imp_left fun _ _ hw => hw.1) hf

theorem admits_terminal {g : Grammar V} {b : Body} (he : b.eager = []) (ha : b.alternatives = []) :
    g.Admits b := ⟨fun i hi => by simp [he] at hi, fun slot hs => by simp [ha] at hs⟩

theorem character_makes {d test} {embed : Char → V} (h : w.grammar.Layered) :
    Ensures (character d test embed) w w.Makes fun _ w' => w' = w :=
  makes_of_node h (admits_terminal rfl rfl) fun _ => rfl

theorem characters_makes {d test} {embed : List Char → V} (h : w.grammar.Layered) :
    Ensures (characters d test embed) w w.Makes fun _ w' => w' = w := by
  have hone := node_enlarges h (admits_terminal (b := .predicate d test) rfl rfl)
  refine hone.of_no_error.bind ?_
  rintro one mid ⟨hmid, hsize, -⟩
  have hplus := node_enlarges hmid.layered (admits_of_operand? (b := .plus one) rfl hsize)
  refine hplus.of_no_error.bind ?_
  rintro r w' ⟨hw, -⟩
  exact .pure ⟨hmid.trans hw, .of_slots? rfl⟩

theorem pair_makes {a b : Parser V} {label combine} (h : w.grammar.Layered)
    (ha : a.rule ≤ w.grammar.rules.size) (hb : b.rule ≤ w.grammar.rules.size) :
    Ensures (pair a b label combine) w w.Makes fun _ w' => w' = w :=
  makes_of_rule (andThen_enlarges h ha hb) fun _ => rfl

theorem starParser_makes {item : Parser V} {collect} (h : w.grammar.Layered)
    (hi : item.rule ≤ w.grammar.rules.size) :
    Ensures (starParser item collect) w w.Makes fun _ w' => w' = w :=
  makes_of_node h (admits_of_operand? rfl hi) fun _ => rfl

theorem plusParser_makes {item : Parser V} {collect} (h : w.grammar.Layered)
    (hi : item.rule ≤ w.grammar.rules.size) :
    Ensures (plusParser item collect) w w.Makes fun _ w' => w' = w :=
  makes_of_node h (admits_of_operand? rfl hi) fun _ => rfl

theorem optionParser_makes {item : Parser V} {embed} (h : w.grammar.Layered)
    (hi : item.rule ≤ w.grammar.rules.size) :
    Ensures (optionParser item embed) w w.Makes fun _ w' => w' = w :=
  makes_of_node h (admits_of_operand? rfl hi) fun _ => rfl

/-- An alternative that takes its rule from a parser slot. -/
theorem ruleSlot_twins {slot : Nat} (h : w.grammar.Layered) :
    Ensures (ruleSlot ⟨.parser slot, none⟩) w (fun a w' => w.Enlarges w' ∧
      w'.grammar.Twins w'.bindings slot a ∧ w'.grammar.Admits (.choice [a])) fun _ _ => False := by
  refine (ruleSlot_enlarges h fun r hr => by cases hr).imp_left ?_
  rintro a w' ⟨hw, k, rfl, hk, hsource⟩
  refine ⟨hw, .deferred hk hsource, fun i hi => absurd hi List.not_mem_nil, fun k' hk' => ?_⟩
  cases List.mem_singleton.mp hk'
  exact hk

theorem admits_of_twins {slots : List Nat} {alternatives : List Alternative} (h : w.Consistent known)
    (hall : List.Forall₂ (w.grammar.Twins w.bindings) slots alternatives) :
    w.grammar.Admits (.choice alternatives) := by
  have htwin : ∀ a ∈ alternatives, ∃ slot, w.grammar.Twins w.bindings slot a := fun a ha => by
    induction hall with
    | nil => cases ha
    | cons ht _ ih =>
        rcases List.mem_cons.mp ha with rfl | ha
        · exact ⟨_, ht⟩
        · exact ih ha
  refine ⟨fun r hr => ?_, fun k hk => ?_⟩
  · obtain ⟨a, ha, hready⟩ := List.mem_filterMap.mp hr
    obtain ⟨slot, ht⟩ := htwin a ha
    cases ht with
    | @ready p hs hp =>
        cases hready
        exact (h.settled p (h.mem_of_parserTarget hs (boundParser?_target h hp))).rule
    | deferred => cases hready
  · obtain ⟨slot, ht⟩ := htwin _ hk
    cases ht with
    | deferred hk _ => exact hk

theorem choose_makes {slots : List Nat} (h : w.Consistent known) (hl : w.grammar.Layered)
    (hs : ∀ slot ∈ slots, slot < w.grammar.parserSlots.size) :
    Ensures (choose slots) w w.Makes fun _ w' => w' = w := by
  cases slots with
  | nil => exact .fail rfl rfl
  | cons first rest =>
      unfold choose
      refine ((Ensures.mapM (I := fun w => w.Consistent known ∧ w.grammar.Layered)
        (R := Workspace.Enlarges) (P := fun slot w => slot < w.grammar.parserSlots.size)
        (T := fun slot a w => w.grammar.Twins w.bindings slot a) (E := fun _ _ => False)
        (fun _ h => .refl h.2) .trans (fun he hs => Nat.lt_of_lt_of_le hs he.grows.parserSlots)
        Workspace.Enlarges.twins ?_ ⟨h, hl⟩ hs).of_no_error).bind ?_
      · rintro slot w ⟨h, hl⟩ hs
        apply Ensures.get
        cases hp : w.grammar.boundParser? w.bindings slot with
        | some p => exact .pure ⟨⟨h, hl⟩, .refl hl, .ready hs hp⟩
        | none =>
            have hslot : ∀ k, RuleSource.parser slot = .parser k → k < w.grammar.parserSlots.size :=
              fun k hk => by
                cases hk
                exact hs
            refine ((ruleSlot_twins hl).and (ruleSlot_leads h hslot)).imp ?_ fun _ _ hf => hf.1
            exact fun a w' ⟨⟨he, ht, _⟩, ⟨hc, _⟩⟩ => ⟨⟨hc.consistent, he.layered⟩, he, ht⟩
      · rintro alternatives mid ⟨⟨hc, hmid⟩, he, hall⟩
        refine ((choice_enlarges hmid (admits_of_twins hc hall)).imp_right ?_).bind ?_
        · rintro _ _ ⟨-, rfl⟩
          cases hall
        · rintro r w' ⟨hw, -, hbody⟩
          refine .pure ⟨he.trans hw, fun slots hslots => ⟨alternatives, hbody, ?_⟩⟩
          cases hslots
          exact hall.imp fun _ _ => hw.twins

theorem deferredParser_makes {f : Nat} (h : w.grammar.Layered) :
    Ensures (deferredParser f) w w.Makes fun _ w' => w' = w := by
  refine (parserSlot_enlarges h).of_no_error.bind fun slot first hfirst => ?_
  refine (ruleSlot_twins hfirst.layered).of_no_error.bind ?_
  rintro a second ⟨hsecond, ht, hadmits⟩
  refine ((choice_enlarges hsecond.layered hadmits).imp_right ?_).bind ?_
  · rintro _ _ ⟨-, he⟩
    cases he
  · rintro r w' ⟨hw, -, hbody⟩
    refine .pure ⟨(hfirst.trans hsecond).trans hw, fun slots hslots => ⟨[a], hbody, ?_⟩⟩
    cases hslots
    exact .cons (hw.twins ht) .nil

end Assembly

end Packrat
