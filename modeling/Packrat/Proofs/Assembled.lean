import Packrat.Proofs.Alignment
import Packrat.Proofs.Resolution
import Packrat.Sample.Lambda

/-!
# What assembly makes

The workspaces that the operations of assembly lead to, with the parsers that are in scope
(`Assembled`). Every step keeps them consistent, so every parser that can be built is aligned with its
rule, and will be however the grammar goes on to grow.
-/

namespace Packrat

variable {V : Type}

/-! ## Consistency -/

/-- What has been found has been found for slots of the grammar. -/
structure Bindings.Within (g : Grammar V) (b : Bindings V) : Prop where
  rule : ∀ slot r, (b.rules.get slot).resolved = some r → slot < g.ruleSlots.size
  parser : ∀ slot p, (b.parsers.get slot).resolved = some p → slot < g.parserSlots.size

/-- Whatever parser the grammar holds is known, and a slot that takes its rule from a parser slot comes
after it. -/
structure Grammar.Holds (g : Grammar V) (known : List (Parser V)) : Prop where
  sources : ∀ slot k, g.ruleSource slot = .parser k → k < g.parserSlots.size
  ready : ∀ slot < g.parserSlots.size, ∀ p, g.parserSource slot = .ready p → p ∈ known
  produced : ∀ slot < g.parserSlots.size, ∀ p, g.parserSource slot = .produced p → p ∈ known
  forwards : ∀ f p, (g.parserForward f).definition = some p → p ∈ known

/-- The parser has a rule of the grammar, and is aligned in whatever the grammar grows into. -/
structure Parser.Settled (g : Grammar V) (p : Parser V) : Prop where
  rule : p.rule ≤ g.rules.size
  aligned : ∀ g', g.Extends g' → p.Aligned g'

structure Workspace.Consistent (w : Workspace V) (known : List (Parser V)) : Prop where
  sound : w.bindings.Sound w.grammar
  within : w.bindings.Within w.grammar
  holds : w.grammar.Holds known
  settled : ∀ p ∈ known, p.Settled w.grammar

section

variable {g g' : Grammar V} {known known' : List (Parser V)} {w : Workspace V}

theorem Bindings.Sound.extend {b : Bindings V} (h : b.Sound g) (hb : b.Within g) (hg : g.Holds known)
    (he : g.Extends g') : b.Sound g' where
  rule slot r hr := he.ruleTarget (hb.rule slot r hr) (hg.sources slot) (h.rule slot r hr)
  parser slot p hp := he.parserTarget (hb.parser slot p hp) (h.parser slot p hp)

theorem Parser.Settled.extend {p : Parser V} (h : p.Settled g) (he : g.Extends g') : p.Settled g' :=
  ⟨Nat.le_trans h.rule he.rules, fun _ he' => h.aligned _ (he.trans he')⟩

theorem Grammar.Holds.mono (h : g.Holds known) (hk : ∀ p ∈ known, p ∈ known') : g.Holds known' :=
  ⟨h.sources, fun slot hs p hp => hk p (h.ready slot hs p hp),
    fun slot hs p hp => hk p (h.produced slot hs p hp), fun f p hp => hk p (h.forwards f p hp)⟩

namespace Workspace.Consistent

theorem extend (h : w.Consistent known) (he : w.grammar.Extends g') (hg : g'.Holds known) :
    Workspace.Consistent { w with grammar := g' } known where
  sound := h.sound.extend h.within h.holds he
  within := ⟨fun slot r hr => Nat.lt_of_lt_of_le (h.within.rule slot r hr) he.ruleSlots,
    fun slot p hp => Nat.lt_of_lt_of_le (h.within.parser slot p hp) he.parserSlots⟩
  holds := hg
  settled p hp := (h.settled p hp).extend he

theorem add {p : Parser V} (h : w.Consistent known) (hp : p.Settled w.grammar) :
    w.Consistent (p :: known) where
  sound := h.sound
  within := h.within
  holds := h.holds.mono fun _ => List.mem_cons_of_mem p
  settled := List.forall_mem_cons.mpr ⟨hp, h.settled⟩

theorem aligned (h : w.Consistent known) {p : Parser V} (hp : p ∈ known) : p.Aligned w.grammar :=
  (h.settled p hp).aligned _ .refl

/-- A parser that a slot of the grammar stands for is known. -/
theorem mem_of_parserTarget (h : w.Consistent known) {slot : Nat} {p : Parser V}
    (hs : slot < w.grammar.parserSlots.size) (hp : w.grammar.parserTarget slot = some p) : p ∈ known := by
  unfold Grammar.parserTarget at hp
  cases hsource : w.grammar.parserSource slot with
  | ready q =>
      cases hsource ▸ hp
      exact h.holds.ready slot hs _ hsource
  | produced q =>
      cases hsource ▸ hp
      exact h.holds.produced slot hs _ hsource
  | forward f => exact h.holds.forwards f p (by simpa [hsource] using hp)

theorem aligned_slots (h : w.Consistent known) : w.grammar.Aligned := by
  intro slot p hp
  by_cases hs : slot < w.grammar.parserSlots.size
  · exact h.aligned (h.mem_of_parserTarget hs hp)
  -- a number that names no slot stands for the empty choice
  · have hp' : some (Parser.choice 0 []) = some p := by
      simpa [Grammar.parserTarget, Grammar.parserSource, hs] using hp
    cases hp'
    exact .choice .nil

end Workspace.Consistent

/-! ## Elementary additions -/

/-- The workspace `w'` is consistent and comes from `w` by additions. -/
structure Workspace.Leads (known : List (Parser V)) (w w' : Workspace V) : Prop where
  consistent : w'.Consistent known
  grows : w.grammar.Extends w'.grammar

theorem Workspace.Leads.trans {w' w'' : Workspace V} (h : w.Leads known w') (h' : w'.Leads known w'') :
    w.Leads known w'' := ⟨h'.consistent, h.grows.trans h'.grows⟩

/-- The newest rule of `w'` has the body, and keeps it. -/
structure Workspace.Adds (known : List (Parser V)) (w : Workspace V) (body : Body) (r : RuleId)
    (w' : Workspace V) : Prop extends w.Leads known w' where
  newest : r = w'.grammar.rules.size
  body : ∀ g, w'.grammar.Extends g → g.body r = body

/-- A parser has been built on the way to `w'`. -/
structure Workspace.Builds (known : List (Parser V)) (w : Workspace V) (p : Parser V)
    (w' : Workspace V) : Prop extends w.Leads known w' where
  settled : p.Settled w'.grammar

namespace Assembly

theorem node_adds {body : Body} (h : w.Consistent known) :
    Ensures (node body) w (w.Adds known body) fun _ _ => True := by
  refine .done rfl ⟨⟨h.extend Grammar.extends_rule ?_, Grammar.extends_rule⟩, rfl, fun g he => ?_⟩
  · exact ⟨h.holds.sources, h.holds.ready, h.holds.produced, h.holds.forwards⟩
  · rw [he.body _ (Nat.le_refl _)]
    exact Grammar.body_push

theorem ruleSlot_leads {slot : Slot RuleSource} (h : w.Consistent known)
    (hs : ∀ k, slot.source = .parser k → k < w.grammar.parserSlots.size) :
    Ensures (ruleSlot slot) w (fun a w' => w.Leads known w' ∧
      ∀ k, slot.source = .parser k → ∀ g, w'.grammar.Extends g → g.SameTarget k a)
      fun _ _ => True := by
  refine .done rfl ⟨⟨h.extend Grammar.extends_ruleSlot ?_, Grammar.extends_ruleSlot⟩, ?_⟩
  · refine ⟨fun number k hk => ?_, h.holds.ready, h.holds.produced, h.holds.forwards⟩
    rw [Grammar.ruleSource_push] at hk
    split at hk
    · exact hs k hk
    · exact h.holds.sources number k hk
  · intro k hk g he
    have hnew := he.ruleSource w.grammar.ruleSlots.size (by simp)
    rw [Grammar.ruleSource_push, if_pos rfl, hk] at hnew
    simp only [Grammar.SameTarget, Grammar.alternativeTarget, Grammar.ruleTarget, hnew]

theorem parserSlot_leads {slot : Slot (ParserSource V)} (h : w.Consistent known)
    (hs : ∀ p, slot.source = .ready p ∨ slot.source = .produced p → p ∈ known) :
    Ensures (parserSlot slot) w (fun number w' => w.Leads known w' ∧
      number < w'.grammar.parserSlots.size) fun _ _ => True := by
  have hlt : ∀ k, k < (w.grammar.parserSlots.push slot).size → k ≠ w.grammar.parserSlots.size →
      k < w.grammar.parserSlots.size := by
    intro k hk hne
    rw [Array.size_push] at hk
    omega
  refine .done rfl ⟨⟨h.extend Grammar.extends_parserSlot ?_, Grammar.extends_parserSlot⟩, by simp⟩
  refine ⟨fun k k' hk => ?_, fun k hk p hp => ?_, fun k hk p hp => ?_, h.holds.forwards⟩
  · exact Nat.lt_of_lt_of_le (h.holds.sources k k' hk) (by simp)
  · rw [Grammar.parserSource_push] at hp
    split at hp
    · exact hs p (.inl hp)
    · next hne => exact h.holds.ready k (hlt k hk hne) p hp
  · rw [Grammar.parserSource_push] at hp
    split at hp
    · exact hs p (.inr hp)
    · next hne => exact h.holds.produced k (hlt k hk hne) p hp

theorem declareRule_leads {name : String} (h : w.Consistent known) :
    Ensures (declareRule name) w (fun _ w' => w.Leads known w') fun _ _ => True := by
  refine .done rfl ⟨h.extend Grammar.extends_ruleForward ?_, Grammar.extends_ruleForward⟩
  exact ⟨h.holds.sources, h.holds.ready, h.holds.produced, h.holds.forwards⟩

theorem declareParser_leads {name : String} (h : w.Consistent known) :
    Ensures (declareParser name) w (fun _ w' => w.Leads known w') fun _ _ => True := by
  refine .done rfl ⟨h.extend Grammar.extends_parserForward ?_, Grammar.extends_parserForward⟩
  refine ⟨h.holds.sources, h.holds.ready, h.holds.produced, fun f p hp => ?_⟩
  exact h.holds.forwards f p (Grammar.definition_push.symm.trans hp)

theorem defineRule_leads {f : Nat} {r : RuleId} (h : w.Consistent known) :
    Ensures (defineRule f r) w (fun _ w' => w.Leads known w') fun _ _ => True := by
  unfold defineRule
  apply Ensures.get
  cases hf : (w.grammar.ruleForward f).definition with
  | some _ =>
      simp only [Forward.isDefined, hf, Option.isSome_some, if_true]
      exact .throw trivial
  | none =>
      simp only [Forward.isDefined, hf, Option.isSome_none, Bool.false_eq_true, if_false]
      refine .done rfl ⟨h.extend (Grammar.extends_defineRule hf) ?_, Grammar.extends_defineRule hf⟩
      exact ⟨h.holds.sources, h.holds.ready, h.holds.produced, h.holds.forwards⟩

theorem defineParser_leads {f : Nat} {p : Parser V} (h : w.Consistent known) (hp : p ∈ known) :
    Ensures (defineParser f p) w (fun _ w' => w.Leads known w') fun _ _ => True := by
  unfold defineParser
  apply Ensures.get
  cases hf : (w.grammar.parserForward f).definition with
  | some _ =>
      simp only [Forward.isDefined, hf, Option.isSome_some, if_true]
      exact .throw trivial
  | none =>
      simp only [Forward.isDefined, hf, Option.isSome_none, Bool.false_eq_true, if_false]
      refine .done rfl
        ⟨h.extend (Grammar.extends_defineParser hf) ?_, Grammar.extends_defineParser hf⟩
      refine ⟨h.holds.sources, h.holds.ready, h.holds.produced, fun k q hq => ?_⟩
      rcases Grammar.definition_of_set hq with hold | rfl
      · exact h.holds.forwards k q hold
      · exact hp

/-! ## Parsers -/

theorem builds {act : Assembly V RuleId} {body : Body} {f : RuleId → Parser V}
    (hact : Ensures act w (w.Adds known body) fun _ _ => True) (hrule : ∀ r, (f r).rule = r)
    (hfit : ∀ g r, w.grammar.Extends g → g.body r = body → (f r).Fits g body) :
    Ensures (act >>= fun r => pure (f r)) w (w.Builds known) fun _ _ => True := by
  refine hact.bind fun r w' ha => .pure ⟨ha.toLeads, ?_, fun g he => ?_⟩
  · exact Nat.le_of_eq ((hrule r).trans ha.newest)
  · have hbody := ha.body g he
    unfold Parser.Aligned
    rw [hrule, hbody]
    exact hfit g r (ha.grows.trans he) hbody

theorem character_builds {d test} {embed : Char → V} (h : w.Consistent known) :
    Ensures (character d test embed) w (w.Builds known) fun _ _ => True :=
  builds (node_adds h) (fun _ => rfl) fun _ _ _ hb => .character hb

theorem characters_builds {d test} {embed : List Char → V} (h : w.Consistent known) :
    Ensures (characters d test embed) w (w.Builds known) fun _ _ => True := by
  apply (node_adds h).bind
  intro one mid hone
  refine (builds (f := fun r => .characters r embed) (node_adds hone.consistent) (fun _ => rfl)
    fun g r he hb => .characters hb (hone.body g he)).imp_left fun p w' hp => ?_
  exact ⟨hone.toLeads.trans hp.toLeads, hp.settled⟩

theorem pair_builds {a b : Parser V} {label combine} (h : w.Consistent known) (ha : a ∈ known)
    (hb : b ∈ known) : Ensures (pair a b label combine) w (w.Builds known) fun _ _ => True := by
  have hparts : ∀ g, w.grammar.Extends g → flatten w.grammar [a.rule, b.rule] =
      (g.body a.rule).parts a.rule ++ (g.body b.rule).parts b.rule := by
    intro g he
    simp [flatten, he.body _ (h.settled a ha).rule, he.body _ (h.settled b hb).rule]
  have hact : Ensures (andThen a.rule b.rule) w
      (w.Adds known (.sequence (flatten w.grammar [a.rule, b.rule]))) fun _ _ => True :=
    .get (node_adds h)
  apply builds hact (fun _ => rfl)
  intro g r he _
  rw [hparts g he]
  exact .pair ((h.settled a ha).aligned g he) ((h.settled b hb).aligned g he)

theorem starParser_builds {item : Parser V} {collect} (h : w.Consistent known) (hi : item ∈ known) :
    Ensures (starParser item collect) w (w.Builds known) fun _ _ => True :=
  builds (node_adds h) (fun _ => rfl) fun g _ he _ => .star ((h.settled item hi).aligned g he)

theorem plusParser_builds {item : Parser V} {collect} (h : w.Consistent known) (hi : item ∈ known) :
    Ensures (plusParser item collect) w (w.Builds known) fun _ _ => True :=
  builds (node_adds h) (fun _ => rfl) fun g _ he _ => .plus ((h.settled item hi).aligned g he)

theorem optionParser_builds {item : Parser V} {embed} (h : w.Consistent known) (hi : item ∈ known) :
    Ensures (optionParser item embed) w (w.Builds known) fun _ _ => True :=
  builds (node_adds h) (fun _ => rfl) fun g _ he _ => .option ((h.settled item hi).aligned g he)

theorem deferredParser_builds {f : Nat} (h : w.Consistent known) :
    Ensures (deferredParser f) w (w.Builds known) fun _ _ => True := by
  have hslot : Ensures (parserSlot ⟨.forward f, none⟩) w _ fun _ _ => True :=
    parserSlot_leads h fun p hp => by simp at hp
  apply hslot.bind
  rintro slot w₁ ⟨h₁, hlt⟩
  refine (ruleSlot_leads h₁.consistent fun k hk => ?_).bind ?_
  · cases hk
    exact hlt
  · rintro a w₂ ⟨h₂, hsame⟩
    refine (builds (f := fun r => .deferred r slot) (node_adds h₂.consistent) (fun _ => rfl)
      fun g r he _ => .deferred (hsame slot rfl g he)).imp_left fun p w' hp => ?_
    exact ⟨(h₁.trans h₂).trans hp.toLeads, hp.settled⟩

/-! ## Choices -/

theorem boundParser?_target {slot : Nat} {p : Parser V} (h : w.Consistent known)
    (hp : w.grammar.boundParser? w.bindings slot = some p) : w.grammar.parserTarget slot = some p := by
  unfold Grammar.boundParser? at hp
  split at hp
  · next q hq =>
      cases hp
      simp only [Grammar.parserTarget, hq]
  · exact h.sound.parser slot p hp

theorem choose_builds {slots : List Nat} (h : w.Consistent known)
    (hs : ∀ slot ∈ slots, slot < w.grammar.parserSlots.size) :
    Ensures (choose slots) w (w.Builds known) fun _ _ => True := by
  unfold choose
  refine (Ensures.mapM (I := (Workspace.Consistent · known)) (R := Workspace.Leads known)
    (P := fun slot w => slot < w.grammar.parserSlots.size)
    (T := fun slot a w => ∀ g, w.grammar.Extends g → g.SameTarget slot a)
    (fun _ h => ⟨h, .refl⟩) .trans (fun hl hs => Nat.lt_of_lt_of_le hs hl.grows.parserSlots)
    (fun hl ha g he => ha g (hl.grows.trans he)) ?_ h hs).bind ?_
  · intro slot w h hs
    apply Ensures.get
    cases hp : w.grammar.boundParser? w.bindings slot with
    | some p =>
        refine .pure ⟨h, ⟨h, .refl⟩, fun g he => ?_⟩
        have ht := he.parserTarget hs (boundParser?_target h hp)
        simp [Grammar.SameTarget, Grammar.alternativeTarget, ht]
    | none =>
        refine (ruleSlot_leads h fun k hk => ?_).imp_left fun a w' ⟨hl, ha⟩ =>
          ⟨hl.consistent, hl, ha slot rfl⟩
        cases hk
        exact hs
  · rintro alternatives w₁ ⟨-, h₁, hall⟩
    cases alternatives with
    | nil => exact .throw trivial
    | cons a rest =>
        refine (builds (f := fun r => .choice r slots) (node_adds h₁.consistent) (fun _ => rfl)
          fun g r he _ => .choice (hall.imp fun _ _ ha => ha g he)).imp_left fun p w' hp => ?_
        exact ⟨h₁.trans hp.toLeads, hp.settled⟩

end Assembly

/-! ## Assembled workspaces -/

/-- The workspaces that the operations of assembly lead to, each with the parsers that have been built
on the way. An operation takes parsers and slots only from the workspace. In between, runs may find some of
the deferred alternatives. -/
inductive Assembled : Workspace V → List (Parser V) → Prop
  | empty : Assembled .empty []
  | used {w known b actions} (h : Assembled w known) (hb : b.Sound w.grammar)
      (hw : b.Within w.grammar) : Assembled ⟨w.grammar, b, actions⟩ known
  | node {w known body r w'} (h : Assembled w known) (hok : Assembly.node body w = .ok r w') :
      Assembled w' known
  | ruleSlot {w known slot a w'} (h : Assembled w known)
      (hs : ∀ k, slot.source = .parser k → k < w.grammar.parserSlots.size)
      (hok : Assembly.ruleSlot slot w = .ok a w') : Assembled w' known
  | parserSlot {w known slot number w'} (h : Assembled w known)
      (hs : ∀ p, slot.source = .ready p ∨ slot.source = .produced p → p ∈ known)
      (hok : Assembly.parserSlot slot w = .ok number w') : Assembled w' known
  | declareRule {w known name f w'} (h : Assembled w known)
      (hok : Assembly.declareRule name w = .ok f w') : Assembled w' known
  | declareParser {w known name f w'} (h : Assembled w known)
      (hok : Assembly.declareParser name w = .ok f w') : Assembled w' known
  | defineRule {w known f r w'} (h : Assembled w known)
      (hok : Assembly.defineRule f r w = .ok () w') : Assembled w' known
  | defineParser {w known f p w'} (h : Assembled w known) (hp : p ∈ known)
      (hok : Assembly.defineParser f p w = .ok () w') : Assembled w' known
  | ofRule {w known r v} (h : Assembled w known) (hr : r ≤ w.grammar.rules.size) :
      Assembled w (Assembly.ofRule r v :: known)
  | character {w known d test embed p w'} (h : Assembled w known)
      (hok : Assembly.character d test embed w = .ok p w') : Assembled w' (p :: known)
  | characters {w known d test embed p w'} (h : Assembled w known)
      (hok : Assembly.characters d test embed w = .ok p w') : Assembled w' (p :: known)
  | pair {w known a b label combine p w'} (h : Assembled w known) (ha : a ∈ known) (hb : b ∈ known)
      (hok : Assembly.pair a b label combine w = .ok p w') : Assembled w' (p :: known)
  | choose {w known slots p w'} (h : Assembled w known)
      (hs : ∀ slot ∈ slots, slot < w.grammar.parserSlots.size)
      (hok : Assembly.choose slots w = .ok p w') : Assembled w' (p :: known)
  | star {w known item collect p w'} (h : Assembled w known) (hi : item ∈ known)
      (hok : Assembly.starParser item collect w = .ok p w') : Assembled w' (p :: known)
  | plus {w known item collect p w'} (h : Assembled w known) (hi : item ∈ known)
      (hok : Assembly.plusParser item collect w = .ok p w') : Assembled w' (p :: known)
  | option {w known item embed p w'} (h : Assembled w known) (hi : item ∈ known)
      (hok : Assembly.optionParser item embed w = .ok p w') : Assembled w' (p :: known)
  | map {w known p label transform} (h : Assembled w known) (hp : p ∈ known) :
      Assembled w (.map p label transform :: known)
  | spanned {w known p embed} (h : Assembled w known) (hp : p ∈ known) :
      Assembled w (.spanned p embed :: known)
  | deferred {w known f p w'} (h : Assembled w known)
      (hok : Assembly.deferredParser f w = .ok p w') : Assembled w' (p :: known)

theorem Workspace.Builds.consistent_cons {p : Parser V} {w' : Workspace V} (h : w.Builds known p w') :
    w'.Consistent (p :: known) := h.consistent.add h.settled

theorem Workspace.Consistent.empty : Workspace.Consistent (V := V) .empty [] where
  sound := .empty
  within := ⟨fun _ _ h => by simp [Workspace.empty, Bindings.empty] at h,
    fun _ _ h => by simp [Workspace.empty, Bindings.empty] at h⟩
  holds := ⟨fun _ _ h => by simp [Workspace.empty, Grammar.empty, Grammar.ruleSource] at h,
    fun _ h => absurd h (Nat.not_lt_zero _), fun _ h => absurd h (Nat.not_lt_zero _),
    fun _ _ h => by simp [Workspace.empty, Grammar.empty, Grammar.parserForward, Forward.declare] at h⟩
  settled _ h := absurd h List.not_mem_nil

theorem Assembled.consistent (h : Assembled w known) : w.Consistent known := by
  induction h with
  | empty => exact .empty
  | used _ hb hw ih => exact ⟨hb, hw, ih.holds, ih.settled⟩
  | node _ hok ih => exact ((Assembly.node_adds ih).of_ok hok).consistent
  | ruleSlot _ hs hok ih => exact ((Assembly.ruleSlot_leads ih hs).of_ok hok).1.consistent
  | parserSlot _ hs hok ih => exact ((Assembly.parserSlot_leads ih hs).of_ok hok).1.consistent
  | declareRule _ hok ih => exact ((Assembly.declareRule_leads ih).of_ok hok).consistent
  | declareParser _ hok ih => exact ((Assembly.declareParser_leads ih).of_ok hok).consistent
  | defineRule _ hok ih => exact ((Assembly.defineRule_leads ih).of_ok hok).consistent
  | defineParser _ hp hok ih => exact ((Assembly.defineParser_leads ih hp).of_ok hok).consistent
  | ofRule _ hr ih => exact ih.add ⟨hr, fun _ _ => .silent⟩
  | character _ hok ih => exact ((Assembly.character_builds ih).of_ok hok).consistent_cons
  | characters _ hok ih => exact ((Assembly.characters_builds ih).of_ok hok).consistent_cons
  | pair _ ha hb hok ih => exact ((Assembly.pair_builds ih ha hb).of_ok hok).consistent_cons
  | choose _ hs hok ih => exact ((Assembly.choose_builds ih hs).of_ok hok).consistent_cons
  | star _ hi hok ih => exact ((Assembly.starParser_builds ih hi).of_ok hok).consistent_cons
  | plus _ hi hok ih => exact ((Assembly.plusParser_builds ih hi).of_ok hok).consistent_cons
  | option _ hi hok ih => exact ((Assembly.optionParser_builds ih hi).of_ok hok).consistent_cons
  | map _ hp ih =>
      have hp := ih.settled _ hp
      exact ih.add ⟨hp.rule, fun g he => .map (hp.aligned g he)⟩
  | spanned _ hp ih =>
      have hp := ih.settled _ hp
      exact ih.add ⟨hp.rule, fun g he => .spanned (hp.aligned g he)⟩
  | deferred _ hok ih => exact ((Assembly.deferredParser_builds ih).of_ok hok).consistent_cons

/-! ## Assemblies -/

namespace Assembled

theorem andThen {a b r : RuleId} {w' : Workspace V} (h : Assembled w known)
    (hok : Assembly.andThen a b w = .ok r w') : Assembled w' known := by
  have hnode : Assembly.node (.sequence (Assembly.flatten w.grammar [a, b])) w = .ok r w' := hok
  exact h.node hnode

theorem sequence {rules : List RuleId} {r : RuleId} {w' : Workspace V} (h : Assembled w known)
    (hok : Assembly.sequence rules w = .ok r w') : Assembled w' known := by
  have hnode : Ensures (Assembly.sequence rules) w
      (fun r w' => ∃ children, Assembly.node (.sequence children) w = .ok r w') fun _ _ => True := by
    apply Ensures.get
    cases hf : Assembly.flatten w.grammar rules with
    | nil => exact .throw trivial
    | cons child rest => exact .intro fun _ _ hok => ⟨_, hok⟩
  obtain ⟨_, hnode⟩ := hnode.of_ok hok
  exact h.node hnode

theorem choice {alternatives : List Alternative} {r : RuleId} {w' : Workspace V} (h : Assembled w known)
    (hok : Assembly.choice alternatives w = .ok r w') : Assembled w' known := by
  cases alternatives with
  | nil => cases hok
  | cons a rest => exact h.node hok

theorem parserSlot_ensures {slot : Slot (ParserSource V)} (h : Assembled w known)
    (hs : ∀ p, slot.source = .ready p ∨ slot.source = .produced p → p ∈ known) :
    Ensures (Assembly.parserSlot slot) w (fun k w' => Assembled w' known ∧
      w.grammar.Extends w'.grammar ∧ k < w'.grammar.parserSlots.size) fun _ _ => True := by
  apply Ensures.intro
  intro k w' hok
  obtain ⟨hl, hk⟩ := (Assembly.parserSlot_leads h.consistent hs).of_ok hok
  exact ⟨h.parserSlot hs hok, hl.grows, hk⟩

theorem literalParser_ensures {text : String} {v : V} (h : Assembled w known) :
    Ensures (Assembly.literalParser text v) w (fun p w' => Assembled w' (p :: known))
      fun _ _ => True := by
  refine (Ensures.intro fun r w' hok => ?_).bind fun r w' h => .pure h
  have ha := (Assembly.node_adds h.consistent).of_ok hok
  exact (h.node hok).ofRule (Nat.le_of_eq ha.newest)

theorem closedBy_ensures {first : Parser V} {text : String} {v : V} (h : Assembled w known)
    (hf : first ∈ known) : Ensures (Assembly.closedBy first text v) w
      (fun p w' => ∃ closing, Assembled w' (p :: closing :: known)) fun _ _ => True := by
  refine h.literalParser_ensures.bind fun closing w' h => .intro fun p w'' hok => ⟨closing, ?_⟩
  exact h.pair (List.mem_cons_of_mem _ hf) List.mem_cons_self hok

end Assembled

end

/-- The sample grammar of the lambda calculus is assembled. -/
theorem Lambda.assembly_ensures : Ensures Lambda.assembly .empty
    (fun made w => ∃ known, Assembled w known ∧ made.1 ∈ known) fun _ _ => True := by
  have h := Assembled.empty (V := Lambda.Piece)
  unfold Lambda.assembly
  refine (Ensures.intro fun _ _ hok => h.declareParser hok).bind fun app _ h => ?_
  refine (Ensures.intro fun _ _ hok => h.declareParser hok).bind fun rhs _ h => ?_
  refine (Ensures.intro fun _ _ hok => h.declareParser hok).bind fun abs _ h => ?_
  refine (h.parserSlot_ensures (by simp)).bind ?_
  rintro appSlot _ ⟨h, -, happ⟩
  refine (h.parserSlot_ensures (by simp)).bind ?_
  rintro rhsSlot _ ⟨h, he, hrhs⟩
  have happ := Nat.lt_of_lt_of_le happ he.parserSlots
  refine (Ensures.intro fun _ _ hok => h.choose (by simp [happ, hrhs]) hok).bind fun exp _ h => ?_
  refine (Ensures.intro fun _ _ hok => h.character hok).bind fun id _ h => ?_
  refine h.literalParser_ensures.bind fun opening _ h => ?_
  refine (Ensures.intro fun _ _ hok => h.pair (by simp) (by simp) hok).bind fun inner _ h => ?_
  refine (h.closedBy_ensures List.mem_cons_self).bind ?_
  rintro paren _ ⟨closing, h⟩
  have h : Assembled _ (.map id "var" Lambda.Piece.variableOf :: _) := h.map (by simp)
  refine (h.parserSlot_ensures (by simp)).bind ?_
  rintro idSlot _ ⟨h, -, hid⟩
  refine (h.parserSlot_ensures (by simp)).bind ?_
  rintro absSlot _ ⟨h, he, habs⟩
  have hid := Nat.lt_of_lt_of_le hid he.parserSlots
  refine (h.parserSlot_ensures (by simp)).bind ?_
  rintro parenSlot _ ⟨h, he, hparen⟩
  have hid := Nat.lt_of_lt_of_le hid he.parserSlots
  have habs := Nat.lt_of_lt_of_le habs he.parserSlots
  refine (Ensures.intro fun _ _ hok => h.choose (by simp [hid, habs, hparen]) hok).bind fun operand _ h => ?_
  refine (Ensures.intro fun _ _ hok => h.plus (by simp) hok).bind fun operands _ h => ?_
  refine (Ensures.intro fun _ _ hok => h.pair (by simp) (by simp) hok).bind fun application _ h => ?_
  refine h.literalParser_ensures.bind fun lambda _ h => ?_
  refine (Ensures.intro fun _ _ hok => h.plus (by simp) hok).bind fun ids _ h => ?_
  refine (Ensures.intro fun _ _ hok => h.pair (by simp) (by simp) hok).bind fun heads _ h => ?_
  refine (h.closedBy_ensures List.mem_cons_self).bind ?_
  rintro params _ ⟨dot, h⟩
  refine (Ensures.intro fun _ _ hok => h.pair (by simp) (by simp) hok).bind fun abstraction _ h => ?_
  refine (Ensures.intro fun _ _ hok => h.defineParser (by simp) hok).bind fun _ _ h => ?_
  refine (Ensures.intro fun _ _ hok => h.defineParser (by simp) hok).bind fun _ _ h => ?_
  refine (Ensures.intro fun _ _ hok => h.defineParser (by simp) hok).bind fun _ _ h => ?_
  exact .pure ⟨_, h, by simp⟩

theorem Lambda.assembled : ∃ known, Assembled Lambda.workspace known ∧ Lambda.root ∈ known := by
  have hok : Ensures Lambda.assembly .empty (fun _ _ => True) fun _ _ => False := by decide +kernel
  obtain ⟨made, w, hok, -⟩ := hok.exists_ok
  have hw : Lambda.workspace = w := by simp only [Lambda.workspace, hok]
  have hroot : Lambda.root = made.1 := by simp only [Lambda.root, hok]
  rw [hw, hroot]
  exact Lambda.assembly_ensures.of_ok hok

end Packrat
