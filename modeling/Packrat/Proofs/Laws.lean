import Packrat.Proofs.Comparison
import Packrat.Proofs.Sequences

/-!
# Laws of the operators

Rules that are made in different ways from the same operands can be equivalent: recognition of one and of
the other always concurs. Repetitions, options and lookaheads can be expressed by one another, choices may
be nested, and a sequence distributes over a choice (`Scene.operator_laws`).
-/

namespace Packrat

open Relation (ReflTransGen)

variable {V : Type}

/-! ## Laws of derivations -/

/-- The rule matches where the body does. -/
def Grammar.Means (g : Grammar V) (r : RuleId) (b : Body) : Prop :=
  ∀ text p o, Matches g text r p o ↔ Derives g text b p o

namespace Derives

variable {g : Grammar V} {text : Buffer} {a b c r y z : RuleId} {p : Nat} {o : Outcome}

theorem pair_iff : Derives g text (.sequence [a, b]) p o ↔
    (∃ q, Matches g text a p (.accepted q) ∧ Matches g text b q o) ∨
      o = .rejected ∧ Matches g text a p .rejected := by
  constructor
  · intro h
    cases h with
    | sequence_cons ha hrest => cases hrest with
        | sequence_cons hb hnil =>
            cases hnil
            exact .inl ⟨_, ha, hb⟩
        | sequence_reject hb => exact .inl ⟨_, ha, hb⟩
    | sequence_reject ha => exact .inr ⟨rfl, ha⟩
  · rintro (⟨q, ha, hb⟩ | ⟨rfl, ha⟩)
    · cases o with
      | rejected => exact .sequence_cons ha (.sequence_reject hb)
      | accepted => exact .sequence_cons ha (.sequence_cons hb .sequence_nil)
    · exact .sequence_reject ha

/-- A choice ends as its first part does if that matches, and else as the second part does. -/
theorem choice_append_iff (xs ys : List Alternative) :
    Derives g text (.choice (xs ++ ys)) p o ↔
      (∃ e, o = .accepted e ∧ Derives g text (.choice xs) p o) ∨
        Derives g text (.choice xs) p .rejected ∧ Derives g text (.choice ys) p o := by
  induction xs with
  | nil =>
      constructor
      · exact fun h => .inr ⟨.choice_nil, h⟩
      · rintro (⟨_, rfl, h⟩ | ⟨-, h⟩)
        · cases h
        · exact h
  | cons x xs ih =>
      constructor
      · intro h
        cases h with
        | choice_first hx h => exact .inl ⟨_, rfl, .choice_first hx h⟩
        | choice_next hx h ht =>
            rcases ih.mp ht with ⟨e, he, hxs⟩ | ⟨hxs, hys⟩
            · exact .inl ⟨e, he, .choice_next hx h hxs⟩
            · exact .inr ⟨.choice_next hx h hxs, hys⟩
      · rintro (⟨e, rfl, h⟩ | ⟨h, hys⟩)
        · cases h with
          | choice_first hx h => exact .choice_first hx h
          | choice_next hx h ht => exact .choice_next hx h (ih.mpr (.inl ⟨e, rfl, ht⟩))
        · cases h with
          | choice_next hx h ht => exact .choice_next hx h (ih.mpr (.inr ⟨ht, hys⟩))

theorem choice_singleton_iff {x : Alternative} (hx : g.alternativeTarget x = some r) :
    Derives g text (.choice [x]) p o ↔ Matches g text r p o := by
  constructor
  · intro h
    cases h with
    | choice_first hr h =>
        cases hx.symm.trans hr
        exact h
    | choice_next hr h ht =>
        cases hx.symm.trans hr
        cases ht
        exact h
  · intro h
    cases o with
    | rejected => exact .choice_next hx h .choice_nil
    | accepted => exact .choice_first hx h

theorem either_iff : Derives g text (.choice [.ready a, .ready b]) p o ↔
    (∃ e, o = .accepted e ∧ Matches g text a p o) ∨
      Matches g text a p .rejected ∧ Matches g text b p o := by
  have hone : ∀ r o, Derives g text (.choice [.ready r]) p o ↔ Matches g text r p o :=
    fun r o => choice_singleton_iff rfl
  rw [← List.singleton_append, choice_append_iff, hone, hone, hone]

/-! ### Repetitions, options and lookaheads -/

theorem plus_iff_sequence (hy : g.Means y (.star r)) :
    Derives g text (.plus r) p o ↔ Derives g text (.sequence [r, y]) p o := by
  rw [pair_iff]
  constructor
  · intro h
    cases h with
    | plus hr ht => exact .inl ⟨_, hr, (hy ..).mpr ht⟩
    | plus_reject hr => exact .inr ⟨rfl, hr⟩
  · rintro (⟨q, hr, ht⟩ | ⟨rfl, hr⟩)
    · have hstar := (hy ..).mp ht
      obtain ⟨e, rfl⟩ := hstar.accepted_of_star
      exact .plus hr hstar
    · exact .plus_reject hr

theorem star_iff_option (hy : g.Means y (.plus r)) :
    Derives g text (.star r) p o ↔ Derives g text (.option y) p o := by
  constructor
  · intro h
    cases h with
    | star_more hr ht => exact .option_some ((hy ..).mpr (.plus hr ht))
    | star_stop hr => exact .option_none ((hy ..).mpr (.plus_reject hr))
  · intro h
    cases h with
    | option_some h => cases (hy ..).mp h with
        | plus hr ht => exact .star_more hr ht
    | option_none h => cases (hy ..).mp h with
        | plus_reject hr => exact .star_stop hr

/-- An option is a choice that falls back to nothing. -/
theorem option_iff_choice (hy : g.Means y (.literal [])) :
    Derives g text (.option r) p o ↔ Derives g text (.choice [.ready r, .ready y]) p o := by
  have hnothing : Matches g text y p (.accepted p) := (hy ..).mpr (.literal List.nil_prefix)
  rw [either_iff]
  constructor
  · intro h
    cases h with
    | option_some hr => exact .inl ⟨_, rfl, hr⟩
    | option_none hr => exact .inr ⟨hr, hnothing⟩
  · rintro (⟨e, rfl, hr⟩ | ⟨hr, hy'⟩)
    · exact .option_some hr
    · cases hnothing.unique hy'
      exact .option_none hr

theorem and_iff_not (hy : g.Means y (.not r)) :
    Derives g text (.and r) p o ↔ Derives g text (.not y) p o := by
  constructor
  · intro h
    cases h with
    | and hr => exact .not ((hy ..).mpr (.not_reject hr))
    | and_reject hr => exact .not_reject ((hy ..).mpr (.not hr))
  · intro h
    cases h with
    | not h => cases (hy ..).mp h with
        | not_reject hr => exact .and hr
    | not_reject h => cases (hy ..).mp h with
        | not hr => exact .and_reject hr

/-! ### Sequences and choices -/

/-- A choice among the alternatives of a choice can be made in one. -/
theorem choice_splice (xs ys zs : List Alternative) {x : Alternative}
    (hx : g.alternativeTarget x = some y) (hy : g.Means y (.choice ys)) :
    Derives g text (.choice (xs ++ x :: zs)) p o ↔ Derives g text (.choice (xs ++ (ys ++ zs))) p o := by
  have hone : ∀ o, Derives g text (.choice [x]) p o ↔ Derives g text (.choice ys) p o :=
    fun o => (choice_singleton_iff hx).trans (hy ..)
  rw [← List.singleton_append, choice_append_iff xs, choice_append_iff xs, choice_append_iff [x],
    choice_append_iff ys, hone, hone]

/-- A sequence goes into the alternatives of a choice at its end. -/
theorem sequence_iff_choice (hr : g.Means r (.choice [.ready b, .ready c]))
    (hy : g.Means y (.sequence [a, b])) (hz : g.Means z (.sequence [a, c])) :
    Derives g text (.sequence [a, r]) p o ↔ Derives g text (.choice [.ready y, .ready z]) p o := by
  have hr' : ∀ q, Matches g text r q o ↔ _ := fun q => (hr text q o).trans either_iff
  have hy' : ∀ o, Matches g text y p o ↔ _ := fun o => (hy text p o).trans pair_iff
  have hz' : Matches g text z p o ↔ _ := (hz text p o).trans pair_iff
  rw [pair_iff, either_iff]
  constructor
  · rintro (⟨q, ha, h⟩ | ⟨rfl, ha⟩)
    · rcases (hr' q).mp h with ⟨e, rfl, hb⟩ | ⟨hb, hc⟩
      · exact .inl ⟨e, rfl, (hy' _).mpr (.inl ⟨q, ha, hb⟩)⟩
      · exact .inr ⟨(hy' _).mpr (.inl ⟨q, ha, hb⟩), hz'.mpr (.inl ⟨q, ha, hc⟩)⟩
    · exact .inr ⟨(hy' _).mpr (.inr ⟨rfl, ha⟩), hz'.mpr (.inr ⟨rfl, ha⟩)⟩
  · rintro (⟨e, rfl, h⟩ | ⟨h, h'⟩)
    · rcases (hy' _).mp h with ⟨q, ha, hb⟩ | ⟨he, -⟩
      · exact .inl ⟨q, ha, (hr' q).mpr (.inl ⟨e, rfl, hb⟩)⟩
      · cases he
    -- where the first alternative rejects, the second starts with the same match, if there is one
    · rcases (hy' _).mp h with ⟨q, ha, hb⟩ | ⟨-, ha⟩ <;> rcases hz'.mp h' with ⟨q', ha', hc⟩ | ⟨ho, ha'⟩
      · cases ha.unique ha'
        exact .inl ⟨q, ha, (hr' q).mpr (.inr ⟨hb, hc⟩)⟩
      · cases ha.unique ha'
      · cases ha.unique ha'
      · exact .inr ⟨ho, ha⟩

end Derives

/-! ## Equivalent rules -/

namespace Grammar

variable {g : Grammar V} {x y r : RuleId} {b b' : Body}

/-- Recognition of the two rules concurs at every position of every text, whatever right tables (such as
empty ones with or without memory) the two start with. -/
def Equivalent (g : Grammar V) (x y : RuleId) : Prop :=
  ∀ (text : Buffer) (run run' : Run V), run.Good g text → run'.Good g text →
    run.position = run'.position →
      Concur (fun fuel => Engine.accept g text fuel x) (fun fuel => Engine.accept g text fuel y) run run' Eq

theorem Means.equivalent (hx : g.Means x b) (hy : g.Means y b') (complete : g.Complete x)
    (complete' : g.Complete y) (h : ∀ text p o, Derives g text b p o ↔ Derives g text b' p o) :
    g.Equivalent x y := by
  intro text run run' good good' hpos
  have hsame : ∀ p o, Matches g text x p o ↔ Matches g text y p o :=
    fun p o => ((hx ..).trans (h ..)).trans (hy ..).symm
  refine .of_matches complete complete' good good' (fun o hm => ⟨o, .of_eq, ?_⟩) fun o hm => ⟨o, ?_⟩
  · rw [← hpos]
    exact (hsame ..).mp hm
  · rw [hpos]
    exact (hsame ..).mpr hm

theorem Complete.of_operands (h : ∀ a ∈ (g.body r).alternatives, (g.alternativeTarget a).isSome)
    (hs : ∀ i ∈ g.operands (g.body r), g.Complete i) : g.Complete r := by
  intro r' hr
  rcases hr.cases_head with rfl | ⟨i, hi, hr⟩
  · exact h
  · exact hs i hi r' hr

end Grammar

/-! ## Making rules -/

namespace Assembly

/-- Makes a rule as the body says; a sequence takes the children of its operands that are sequences. -/
def make : Body → Assembly V RuleId
  | .sequence rules => sequence rules
  | .choice alternatives => choice alternatives
  | b => node b

/-- The body as it is in the grammar. -/
def flat (g : Grammar V) : Body → Body
  | .sequence rules => .sequence (flatten g rules)
  | b => b

end Assembly

namespace Scene

variable {s s' : Scene V} {b b' : Body} {a c d r x y : RuleId}

instance {a : Alternative} : Decidable (s.HasAlternative a) :=
  match a with
  | .ready r => inferInstanceAs (Decidable (s.HasRule r))
  | .deferred slot => inferInstanceAs (Decidable (slot < s.grammar.ruleSlots.size))

/-- A rule can be made as the body says: what it is made of is there, and there is something to put
together. -/
def Allows (s : Scene V) : Body → Prop
  | .literal _ | .predicate _ _ => True
  | .sequence rules => rules ≠ [] ∧ ∀ r ∈ rules, s.HasRule r
  | .choice alternatives => alternatives ≠ [] ∧ ∀ a ∈ alternatives, s.HasAlternative a
  | .star item | .plus item | .option item | .and item | .not item => s.HasRule item

instance : Decidable (s.Allows b) :=
  match b with
  | .literal _ | .predicate _ _ => inferInstanceAs (Decidable True)
  | .sequence rules => inferInstanceAs (Decidable (rules ≠ [] ∧ ∀ r ∈ rules, s.HasRule r))
  | .choice alternatives =>
      inferInstanceAs (Decidable (alternatives ≠ [] ∧ ∀ a ∈ alternatives, s.HasAlternative a))
  | .star item | .plus item | .option item | .and item | .not item =>
      inferInstanceAs (Decidable (s.HasRule item))

theorem Operation.make (h : s.Allows b) : s.Operation (s.does (Assembly.make b)) := by
  cases b with
  | sequence => exact .sequence h.2
  | choice => exact .choice h.2
  | _ => exact .node h

theorem make_eq_node (reached : s.Reached) (h : s.Allows b) :
    Assembly.make b s.workspace = Assembly.node (Assembly.flat s.grammar b) s.workspace := by
  cases b with
  | sequence => exact Assembly.sequence_eq_node reached.flat (fun x hx => (h.2 x hx).2) h.1
  | choice alternatives => cases alternatives with
      | nil => exact absurd rfl h.1
      | cons => rfl
  | _ => rfl

/-- The rule has been made as the body says, and anything may have been done since. -/
def Made (s : Scene V) (b : Body) (r : RuleId) : Prop :=
  ∃ (s₀ : Scene V) (w : Workspace V), s₀.Reached ∧ s₀.Allows b ∧
    Assembly.make b s₀.workspace = .ok r w ∧ ReflTransGen Operation (s₀.does (Assembly.make b)) s

namespace Made

theorem body_eq (h : s.Made b r) : s.grammar.body r = Assembly.flat s.grammar b := by
  obtain ⟨s₀, w, reached, hallows, hok, hleads⟩ := h
  obtain ⟨-, hle, hbody⟩ := Assembly.node_made ((make_eq_node reached hallows).symm.trans (does_ok hok))
  have hmade := reached.orderly.operation (.make hallows)
  have hsince := (hmade.orderly.operations hleads).grows
  rw [hsince.body r hle, hbody]
  cases b with
  | sequence rules =>
      have hrules : ∀ x ∈ rules, x ≤ s₀.grammar.rules.size := fun x hx => (hallows.2 x hx).2
      exact congrArg Body.sequence (Assembly.flatten_extends (hmade.grows.trans hsince) hrules).symm
  | _ => rfl

theorem means (h : s.Made b r) : s.grammar.Means r b := by
  intro text p o
  rw [Matches, h.body_eq]
  cases b with
  | sequence => exact Derives.flatten_iff
  | _ => exact Iff.rfl

theorem complete (h : s.Made b r) (ha : ∀ a ∈ b.alternatives, (s.grammar.alternativeTarget a).isSome)
    (hs : ∀ i ∈ s.grammar.operands b, s.grammar.Complete i) : s.grammar.Complete r := by
  have hbody := h.body_eq
  cases b with
  | sequence rules =>
      refine .of_operands (by simp [hbody, Assembly.flat, Body.alternatives]) fun i hi => ?_
      rw [hbody] at hi
      obtain ⟨x, hx, hpart⟩ := List.mem_flatMap.mp hi
      -- a part is the operand itself, or a child of it
      cases hb : s.grammar.body x with
      | sequence children =>
          rw [hb] at hpart
          exact (hs x hx).operand (by rwa [hb])
      | _ =>
          rw [hb] at hpart
          obtain rfl : i = x := List.mem_singleton.mp hpart
          exact hs i hx
  | _ => exact .of_operands (hbody ▸ ha) (hbody ▸ hs)

theorem complete_unary {i : RuleId} (h : s.Made b r) (hb : b.operand? = some i)
    (hi : s.grammar.Complete i) : s.grammar.Complete r := by
  cases b with
  | star | plus | option | and | not =>
      cases hb
      exact h.complete nofun (List.forall_mem_singleton.mpr hi)
  | literal | predicate | sequence | choice => cases hb

theorem complete_pair (h : s.Made (.sequence [x, y]) r) (hx : s.grammar.Complete x)
    (hy : s.grammar.Complete y) : s.grammar.Complete r :=
  h.complete nofun (List.forall_mem_cons.mpr ⟨hx, List.forall_mem_singleton.mpr hy⟩)

theorem complete_choice {alternatives : List Alternative} (h : s.Made (.choice alternatives) r)
    (hs : ∀ x ∈ alternatives, ∃ i, s.grammar.alternativeTarget x = some i ∧ s.grammar.Complete i) :
    s.grammar.Complete r := by
  refine h.complete (fun x hx => ?_) fun i hi => ?_
  · obtain ⟨i, hi, -⟩ := hs x hx
    exact Option.isSome_of_mem hi
  · obtain ⟨x, hx, hi⟩ := List.mem_filterMap.mp hi
    obtain ⟨j, hj, complete⟩ := hs x hx
    cases hi.symm.trans hj
    exact complete

theorem complete_either (h : s.Made (.choice [.ready x, .ready y]) r) (hx : s.grammar.Complete x)
    (hy : s.grammar.Complete y) : s.grammar.Complete r :=
  h.complete_choice (List.forall_mem_cons.mpr ⟨⟨x, rfl, hx⟩, List.forall_mem_singleton.mpr ⟨y, rfl, hy⟩⟩)

/-- Rules that are made in ways that derive the same are equivalent. -/
theorem equivalent (hx : s.Made b x) (hy : s.Made b' y) (complete : s.grammar.Complete x)
    (complete' : s.grammar.Complete y)
    (h : ∀ text p o, Derives s.grammar text b p o ↔ Derives s.grammar text b' p o) :
    s.grammar.Equivalent x y := hx.means.equivalent hy.means complete complete' h

end Made

/-- Rules are numbered in the order in which they are made. -/
theorem make_numbered (reached : s.Reached) (h : s.Allows b) :
    Assembly.make b s.workspace = .ok (s.grammar.rules.size + 1) (s.does (Assembly.make b)).workspace ∧
      (s.does (Assembly.make b)).grammar.rules.size = s.grammar.rules.size + 1 := by
  have hnode : Assembly.node (Assembly.flat s.grammar b) s.workspace = .ok _ _ := rfl
  have hok := does_ok ((make_eq_node reached h).trans hnode)
  rw [Array.size_push] at hok
  refine ⟨hok, ?_⟩
  rw [grammar, does, stateAfter_of_ok ((make_eq_node reached h).trans hnode)]
  exact Array.size_push _

/-- The scene after rules have been made as the bodies say, one after another. -/
def makeAll (s : Scene V) : List Body → Scene V
  | [] => s
  | b :: rest => (s.does (Assembly.make b)).makeAll rest

/-- Each of the rules can be made when its turn comes. -/
def AllowsAll (s : Scene V) : List Body → Prop
  | [] => True
  | b :: rest => s.Allows b ∧ (s.does (Assembly.make b)).AllowsAll rest

instance decidableAllowsAll : (s : Scene V) → (bodies : List Body) → Decidable (s.AllowsAll bodies)
  | _, [] => inferInstanceAs (Decidable True)
  | s, b :: rest =>
      have := decidableAllowsAll (s.does (Assembly.make b)) rest
      inferInstanceAs (Decidable (s.Allows b ∧ (s.does (Assembly.make b)).AllowsAll rest))

theorem makeAll_leads {bodies : List Body} (h : s.AllowsAll bodies) :
    ReflTransGen Operation s (s.makeAll bodies) := by
  induction bodies generalizing s with
  | nil => exact .refl
  | cons b rest ih => exact .head (.make h.1) (ih h.2)

theorem makeAll_made (reached : s.Reached) {bodies : List Body} (h : s.AllowsAll bodies) {i : Nat}
    (hi : bodies[i]? = some b) : (s.makeAll bodies).Made b (s.grammar.rules.size + 1 + i) := by
  induction bodies generalizing s i with
  | nil => cases hi
  | cons b' rest ih =>
      obtain ⟨hok, hsize⟩ := make_numbered reached h.1
      cases i with
      | zero =>
          cases hi
          exact ⟨s, _, reached, h.1, hok, makeAll_leads h.2⟩
      | succ i =>
          have hrest := ih (reached.tail (.make h.1)) h.2 hi
          rw [hsize] at hrest
          rwa [← Nat.add_assoc, Nat.add_right_comm]

/-! ## Laws of made rules -/

/-- Rules that are made in the one way and in the other, as each law says, are equivalent. The operands
may be rules of any kind without undefined forward declarations below them. -/
theorem operator_laws {a b c r : RuleId} (ha : s.grammar.Complete a) (hb : s.grammar.Complete b)
    (hc : s.grammar.Complete c) (hr : s.grammar.Complete r) :
    (∀ x y z, s.Made (.plus r) x → s.Made (.star r) y → s.Made (.sequence [r, y]) z →
      s.grammar.Equivalent x z) ∧
    (∀ x y z, s.Made (.star r) x → s.Made (.plus r) y → s.Made (.option y) z → s.grammar.Equivalent x z) ∧
    (∀ x y z, s.Made (.option r) x → s.Made (.literal []) y → s.Made (.choice [.ready r, .ready y]) z →
      s.grammar.Equivalent x z) ∧
    (∀ x y z, s.Made (.and r) x → s.Made (.not r) y → s.Made (.not y) z → s.grammar.Equivalent x z) ∧
    (∀ x y z, s.Made (.choice [.ready b, .ready c]) x → s.Made (.choice [.ready a, .ready x]) y →
      s.Made (.choice [.ready a, .ready b, .ready c]) z → s.grammar.Equivalent y z) ∧
    (∀ x y z, s.Made (.choice [.ready a, .ready b]) x → s.Made (.choice [.ready x, .ready c]) y →
      s.Made (.choice [.ready a, .ready b, .ready c]) z → s.grammar.Equivalent y z) ∧
    ∀ x y ab ac z, s.Made (.choice [.ready b, .ready c]) x → s.Made (.sequence [a, x]) y →
      s.Made (.sequence [a, b]) ab → s.Made (.sequence [a, c]) ac →
      s.Made (.choice [.ready ab, .ready ac]) z → s.grammar.Equivalent y z := by
  have complete_three : ∀ {z}, s.Made (.choice [.ready a, .ready b, .ready c]) z → s.grammar.Complete z := by
    intro z hz
    refine hz.complete_choice (List.forall_mem_cons.mpr ⟨⟨a, rfl, ha⟩, ?_⟩)
    exact List.forall_mem_cons.mpr ⟨⟨b, rfl, hb⟩, List.forall_mem_singleton.mpr ⟨c, rfl, hc⟩⟩
  refine ⟨?plus, ?star, ?option, ?and, ?right, ?left, ?distribute⟩
  case plus =>
    intro x y z hx hy hz
    have complete := hz.complete_pair hr (hy.complete_unary rfl hr)
    exact hx.equivalent hz (hx.complete_unary rfl hr) complete fun _ _ _ => Derives.plus_iff_sequence hy.means
  case star =>
    intro x y z hx hy hz
    have complete := hz.complete_unary rfl (hy.complete_unary rfl hr)
    exact hx.equivalent hz (hx.complete_unary rfl hr) complete fun _ _ _ => Derives.star_iff_option hy.means
  case option =>
    intro x y z hx hy hz
    have complete := hz.complete_either hr (hy.complete nofun nofun)
    exact hx.equivalent hz (hx.complete_unary rfl hr) complete fun _ _ _ => Derives.option_iff_choice hy.means
  case and =>
    intro x y z hx hy hz
    have complete := hz.complete_unary rfl (hy.complete_unary rfl hr)
    exact hx.equivalent hz (hx.complete_unary rfl hr) complete fun _ _ _ => Derives.and_iff_not hy.means
  case right =>
    intro x y z hx hy hz
    have complete := hy.complete_either ha (hx.complete_either hb hc)
    exact hy.equivalent hz complete (complete_three hz) fun _ _ _ =>
      Derives.choice_splice [.ready a] [.ready b, .ready c] [] rfl hx.means
  case left =>
    intro x y z hx hy hz
    have complete := hy.complete_either (hx.complete_either ha hb) hc
    exact hy.equivalent hz complete (complete_three hz) fun _ _ _ =>
      Derives.choice_splice [] [.ready a, .ready b] [.ready c] rfl hx.means
  case distribute =>
    intro x y ab ac z hx hy hab hac hz
    have complete := hy.complete_pair ha (hx.complete_either hb hc)
    have complete' := hz.complete_either (hab.complete_pair ha hb) (hac.complete_pair ha hc)
    exact hy.equivalent hz complete complete' fun _ _ _ =>
      Derives.sequence_iff_choice hx.means hab.means hac.means

/-- The rules of each law, made of a sequence of two letters and of single letters. -/
theorem operator_laws_letters :
    let rules : List Body := [.literal ['a'], .literal ['b'], .literal ['c'], .sequence [1, 2], .literal [],
      .plus 4, .star 4, .sequence [4, 7], .option 6, .option 4, .choice [.ready 4, .ready 5], .and 4, .not 4,
      .not 13, .choice [.ready 2, .ready 3], .choice [.ready 4, .ready 15], .choice [.ready 4, .ready 2],
      .choice [.ready 17, .ready 3], .choice [.ready 4, .ready 2, .ready 3], .sequence [4, 15],
      .sequence [4, 2], .sequence [4, 3], .choice [.ready 21, .ready 22]]
    let s := (Scene.empty : Scene Unit).makeAll rules
    s.Reached ∧ s.grammar.Equivalent 6 8 ∧ s.grammar.Equivalent 7 9 ∧ s.grammar.Equivalent 10 11 ∧
      s.grammar.Equivalent 12 14 ∧ s.grammar.Equivalent 16 19 ∧ s.grammar.Equivalent 18 19 ∧
      s.grammar.Equivalent 20 23 ∧
      ∃ fuel after, Engine.accept s.grammar (.load 0 "abc") fuel 23 (.begin 0 (.empty .full) s.bindings) =
        .ok true after ∧ after.position = 3 := by
  intro rules s
  let text := Buffer.load 0 "abc"
  have hallows : (Scene.empty : Scene Unit).AllowsAll rules := by decide +kernel
  have reached : s.Reached := makeAll_leads hallows
  have hmade : ∀ {i b}, rules[i]? = some b → s.Made b (i + 1) := fun hi => by
    have h := makeAll_made .refl hallows hi
    rwa [show (Scene.empty : Scene Unit).grammar.rules.size + 1 = 1 from rfl, Nat.add_comm] at h
  have complete : ∀ r, s.grammar.Complete r := Grammar.complete_of_targets (by decide +kernel)
  obtain ⟨hplus, hstar, hoption, hand, hright, hleft, hdistribute⟩ :=
    operator_laws (complete 4) (complete 2) (complete 3) (complete 4)
  have hsame : s.grammar.Equivalent 20 23 :=
    hdistribute 15 20 21 22 23 (hmade rfl) (hmade rfl) (hmade rfl) (hmade rfl) (hmade rfl)
  have sound : s.bindings.Sound s.grammar := reached.orderly.assembled.consistent.sound
  have good : ∀ m, (Run.begin 0 (.empty m) s.bindings).Good s.grammar text :=
    fun _ => .begin (Nat.zero_le _) sound
  have hrun : Ensures (Engine.accept s.grammar text 20 20) (.begin 0 (.empty .none) s.bindings)
      (fun x after => x = true ∧ after.position = 3) fun _ _ => False := by decide +kernel
  obtain ⟨_, after, hok, rfl, hpos⟩ := hrun.exists_ok
  have hconcur := hsame text _ _ (good .none) (good .full) rfl
  obtain ⟨fuel, hs⟩ := hconcur.finishes.mp ⟨20, .of_ok hok⟩
  obtain ⟨x, _, after', h, h', hend⟩ := hconcur.answers 20 fuel (.of_ok hok) hs
  cases hok.symm.trans h
  exact ⟨reached, hplus 6 7 8 (hmade rfl) (hmade rfl) (hmade rfl),
    hstar 7 6 9 (hmade rfl) (hmade rfl) (hmade rfl), hoption 10 5 11 (hmade rfl) (hmade rfl) (hmade rfl),
    hand 12 13 14 (hmade rfl) (hmade rfl) (hmade rfl), hright 15 16 19 (hmade rfl) (hmade rfl) (hmade rfl),
    hleft 17 18 19 (hmade rfl) (hmade rfl) (hmade rfl), hsame, fuel, after', h', (hend rfl).symm.trans hpos⟩

end Scene

end Packrat
