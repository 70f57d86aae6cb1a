import Packrat.Proofs.BreadthFirst
import Packrat.Proofs.Scenes
import Packrat.Proofs.Steady

/-!
# Listings

What a rule is about and which rules have lines is found on one walk, what is written as a reference on
another. The two agree (`Grammar.Grounded.rhs_determined`): the references of a line are the targets of
its rule. So a listing has a line for every reference and for nothing else, in breadth-first order
(`Scene.listing_complete`).
-/

namespace Packrat

open Relation (ReflTransGen)

variable {V : Type}

/-- The rule that a piece refers to. -/
def Piece.reference? : Piece → Option RuleId
  | .text _ => none
  | .reference r => some r

/-- The rules referred to, in order. -/
def references (pieces : List Piece) : List RuleId := pieces.filterMap Piece.reference?

@[simp] theorem references_nil : references [] = [] := rfl

@[simp] theorem references_cons_text {t : String} {pieces : List Piece} :
    references (.text t :: pieces) = references pieces := rfl

@[simp] theorem references_append {xs ys : List Piece} :
    references (xs ++ ys) = references xs ++ references ys := List.filterMap_append

theorem references_intersperse {divider : String} {parts : List (List Piece)} :
    references (parts.intersperse [.text divider]).flatten = parts.flatMap references := by
  induction parts with
  | nil => rfl
  | cons part rest ih =>
      cases rest with
      | nil => simp
      | cons part' rest =>
          rw [List.intersperse_cons_cons, List.flatten_cons, List.flatten_cons, references_append,
            references_append, ih, references_cons_text, references_nil, List.nil_append, List.flatMap_cons (x := part)]

namespace Grammar

variable (g : Grammar V) (names : Names)

/-- The rule that a rule is about, itself unless it is a unary rule without a name. -/
def about (r : RuleId) : RuleId := (g.subject names g.depth r).getD r

/-- The rules that the children of a rule are about and that have lines, in order. -/
def targetRules (r : RuleId) : List RuleId :=
  ((g.operands (g.body r)).map (g.about names)).filter (g.isListed names)

/-- Rules are made of earlier rules, and no alternative stands for a rule that does not exist. -/
structure Grounded : Prop where
  earlier : ∀ r, ∀ i ∈ (g.body r).eager, i < r
  target : ∀ slot r, g.ruleTarget slot = some r → r ≤ g.rules.size

/-- The line shows what the rule is written as, in which the references are the targets of the rule. -/
structure Describes (line : Line) : Prop where
  name : line.name = names.display line.id
  rhs : ∃ pieces, Determined (Bindings.Sound g) (g.rhs names line.id) (.ok pieces) ∧
    line.rhs = String.join (pieces.map (Piece.render names)) ∧
    references pieces = g.targetRules names line.id

variable {g names}

theorem about_of_contains {r : RuleId} (hn : names.contains r = true) : g.about names r = r := by
  unfold about depth subject
  split
  · rw [if_pos hn, Option.getD_some]
  · rfl

theorem about_of_operand?_none {r : RuleId} (ho : (g.body r).operand? = none) : g.about names r = r := by
  unfold about depth subject
  rw [ho, Option.getD_some]

namespace Grounded

variable {r i : RuleId} {fuel : Nat}

theorem of_layered (h : g.Layered) (hparser : ∀ slot p, g.parserTarget slot = some p → p.rule ≤ g.rules.size) :
    g.Grounded := by
  refine ⟨h.earlier, fun slot r hr => ?_⟩
  unfold ruleTarget at hr
  cases hs : g.ruleSource slot with
  | rule r' =>
      rw [hs] at hr
      cases hr
      exact h.sources slot r hs
  | forward f =>
      rw [hs] at hr
      exact h.forwards f r hr
  | parser k =>
      rw [hs] at hr
      obtain ⟨p, hp, rfl⟩ := Option.map_eq_some_iff.mp hr
      exact hparser k p hp

theorem operand_lt (hg : g.Grounded) (h : (g.body r).operand? = some i) : i < r :=
  hg.earlier r i (Body.mem_eager_of_operand? h)

theorem operand_le (hg : g.Grounded) (h : i ∈ g.operands (g.body r)) : i ≤ g.rules.size := by
  have hr := le_size_of_mem_operands h
  have heager : i ∈ (g.body r).eager → i ≤ g.rules.size := fun hi =>
    Nat.le_of_lt (Nat.lt_of_lt_of_le (hg.earlier r i hi) hr)
  cases hb : g.body r with
  | choice alternatives =>
      rw [hb] at h heager
      obtain ⟨a, ha, htarget⟩ := List.mem_filterMap.mp h
      cases a with
      | ready r' =>
          cases htarget
          exact heager (List.mem_filterMap.mpr ⟨_, ha, rfl⟩)
      | deferred slot => exact hg.target slot i htarget
  | literal | predicate => rw [hb] at h; cases h
  | sequence | star | plus | option | and | not => rw [hb] at h heager; exact heager h

/-! ### What a rule is about -/

/-- Any fuel above the rule is enough, since operands are earlier rules. -/
theorem subject_of_lt (hg : g.Grounded) (names : Names) {fuel' : Nat} (hr : r < fuel) (hr' : r < fuel') :
    ∃ s, g.subject names fuel r = some s ∧ g.subject names fuel' r = some s := by
  induction fuel generalizing r fuel' with
  | zero => exact absurd hr (Nat.not_lt_zero r)
  | succ fuel ih =>
      cases fuel' with
      | zero => exact absurd hr' (Nat.not_lt_zero r)
      | succ fuel' =>
          unfold subject
          cases ho : (g.body r).operand? with
          | none => exact ⟨r, rfl, rfl⟩
          | some item =>
              by_cases hn : names.contains r = true
              · exact ⟨r, if_pos hn, if_pos hn⟩
              · simp only [hn]
                have hlt := hg.operand_lt ho
                exact ih (Nat.lt_of_lt_of_le hlt (Nat.le_of_lt_succ hr))
                  (Nat.lt_of_lt_of_le hlt (Nat.le_of_lt_succ hr'))

theorem subject_eq_about (hg : g.Grounded) (names : Names) (hr : r ≤ g.rules.size) :
    g.subject names g.depth r = some (g.about names r) := by
  have hlt : r < g.depth := Nat.lt_succ_of_le hr
  obtain ⟨s, hs, -⟩ := hg.subject_of_lt names hlt hlt
  rw [about, hs, Option.getD_some]

/-- A unary rule without a name is about what its operand is about. -/
theorem about_of_operand? (hg : g.Grounded) {item : RuleId} (ho : (g.body r).operand? = some item)
    (hn : ¬ names.contains r = true) : g.about names r = g.about names item := by
  have hlt := hg.operand_lt ho
  have hr := le_size_of_mem_operands (mem_operands_of_operand? ho)
  obtain ⟨s, hs, hs'⟩ := hg.subject_of_lt names (Nat.lt_of_lt_of_le hlt hr)
    (Nat.lt_succ_of_lt (Nat.lt_of_lt_of_le hlt hr))
  have hsubject : g.subject names g.depth r = some s := by
    simp only [depth, subject, ho, hn, hs]
    rfl
  rw [about, hsubject, about, depth, hs']
  rfl

/-- What a rule is about is the end of a chain of operands. -/
theorem about_induction (hg : g.Grounded) {P : RuleId → RuleId → Prop} (self : ∀ r, P r r)
    (operand : ∀ r item s, (g.body r).operand? = some item → P item s → P r s) (r : RuleId) :
    P r (g.about names r) := by
  induction r using Nat.strongRecOn with
  | _ r ih =>
      by_cases hn : names.contains r = true
      · rw [about_of_contains hn]
        exact self r
      · cases ho : (g.body r).operand? with
        | none =>
            rw [about_of_operand?_none ho]
            exact self r
        | some item =>
            rw [hg.about_of_operand? ho hn]
            exact operand r item _ ho (ih item (hg.operand_lt ho))

theorem about_le (hg : g.Grounded) (names : Names) (r : RuleId) : g.about names r ≤ r :=
  hg.about_induction (P := fun r s => s ≤ r) Nat.le_refl
    (fun _ _ _ ho hs => Nat.le_of_lt (Nat.lt_of_le_of_lt hs (hg.operand_lt ho))) r

theorem reaches_about (hg : g.Grounded) (names : Names) (r : RuleId) : g.Reaches r (g.about names r) :=
  hg.about_induction (P := g.Reaches) (fun _ => .refl)
    (fun _ _ _ ho hs => .head (mem_operands_of_operand? ho) hs) r

theorem exists_about {t : RuleId} (ht : t ∈ g.targetRules names r) :
    ∃ i ∈ g.operands (g.body r), g.about names i = t := by
  obtain ⟨hmem, -⟩ := List.mem_filter.mp ht
  exact List.mem_map.mp hmem

theorem target_le (hg : g.Grounded) {t : RuleId} (ht : t ∈ g.targetRules names r) : t ≤ g.rules.size := by
  obtain ⟨i, hi, rfl⟩ := exists_about ht
  exact Nat.le_trans (hg.about_le names i) (hg.operand_le hi)

theorem reaches_target (hg : g.Grounded) {t : RuleId} (ht : t ∈ g.targetRules names r) :
    g.Reaches r t := by
  obtain ⟨i, hi, rfl⟩ := exists_about ht
  exact .head hi (hg.reaches_about names i)

/-! ### What is written -/

/-- A unary rule is written as its operand is where that is used, with a mark. -/
theorem inline_of_operand? {item : RuleId} {pieces : List Piece} (ho : (g.body r).operand? = some item)
    (h : referTo names (g.inline names fuel) item = some pieces) :
    ∃ marked, g.inline names (fuel + 1) r = some marked ∧ references marked = references pieces := by
  cases hb : g.body r with
  | star | plus | option | and | not =>
      rw [hb] at ho
      cases ho
      simp only [inline, hb, h]
      exact ⟨_, rfl, by simp⟩
  | literal | predicate | sequence | choice =>
      rw [hb] at ho
      cases ho

/-- A rule that is not unary is written as it is, or as a reference if it has a line in any case. -/
theorem inline_of_operand?_none (ho : (g.body r).operand? = none) (hn : ¬ names.contains r = true) :
    ∃ pieces, g.inline names (fuel + 1) r = some pieces ∧
      references pieces = [r].filter (g.isListed names) := by
  have hkind : g.kind r = (g.body r).kind := rfl
  rw [List.filter_singleton, isListed, hkind]
  cases hb : g.body r with
  | literal | predicate | sequence | choice =>
      simp only [inline, hb]
      exact ⟨_, rfl, by simp [hn, Body.kind, references, Piece.reference?]⟩
  | star | plus | option | and | not =>
      rw [hb] at ho
      cases ho

/-- Where a rule is used, a reference stands for what it is about, if that has a line. -/
theorem references_referTo (hg : g.Grounded) (names : Names) (hr : r < fuel) :
    ∃ pieces, referTo names (g.inline names fuel) r = some pieces ∧
      references pieces = [g.about names r].filter (g.isListed names) := by
  induction fuel generalizing r with
  | zero => exact absurd hr (Nat.not_lt_zero r)
  | succ fuel ih =>
      unfold referTo
      by_cases hn : names.contains r = true
      · refine ⟨[.reference r], if_pos hn, ?_⟩
        rw [about_of_contains hn, List.filter_singleton, isListed, hn, Bool.true_or, Bool.true_or]
        rfl
      · simp only [hn]
        cases ho : (g.body r).operand? with
        | some item =>
            obtain ⟨pieces, hpieces, href⟩ :=
              ih (Nat.lt_of_lt_of_le (hg.operand_lt ho) (Nat.le_of_lt_succ hr))
            obtain ⟨marked, hmarked, heq⟩ := inline_of_operand? ho hpieces
            rw [hg.about_of_operand? ho hn]
            exact ⟨marked, hmarked, heq.trans href⟩
        | none =>
            rw [about_of_operand?_none ho]
            exact inline_of_operand?_none ho hn

/-! ### Lines -/

theorem flatMap_filter_singleton {α β : Type} {f : α → β} {keep : β → Bool} {xs : List α} :
    xs.flatMap (fun x => [f x].filter keep) = (xs.map f).filter keep := by
  induction xs with
  | nil => rfl
  | cons x xs ih => rw [List.flatMap_cons, ih, List.map_cons, ← List.filter_append, List.singleton_append]

theorem orExhausted_of_eq_some {α : Type} {x : Option α} {a : α} (h : x = some a) :
    Determined (Bindings.Sound g) (orExhausted x : Resolution V α) (.ok a) := h ▸ .pure

/-- The children of a rule are written one after another, with the targets of the rule as references. -/
theorem listed_determined (hg : g.Grounded) (divider : String)
    (h : ∀ a ∈ (g.body r).alternatives, (g.alternativeTarget a).isSome) :
    ∃ pieces, Determined (Bindings.Sound g) (g.listed names divider r) (.ok pieces) ∧
      references pieces = g.targetRules names r := by
  let part (i : RuleId) : List Piece := (referTo names (g.inline names g.depth) i).getD []
  have hpart : ∀ i ∈ g.operands (g.body r),
      referTo names (g.inline names g.depth) i = some (part i) ∧
        references (part i) = [g.about names i].filter (g.isListed names) := by
    intro i hi
    obtain ⟨pieces, hpieces, href⟩ := hg.references_referTo names
      (Nat.lt_succ_of_le (hg.operand_le hi))
    have heq : part i = pieces := by simp only [part, depth, hpieces, Option.getD_some]
    exact heq ▸ ⟨hpieces, href⟩
  have hparts := Determined.mapM fun i hi => orExhausted_of_eq_some (g := g) (hpart i hi).1
  refine ⟨_, (children_determined h).bind (hparts.bind .pure), ?_⟩
  rw [references_intersperse, List.flatMap_map, targetRules, ← flatMap_filter_singleton]
  exact List.flatMap_congr fun i hi => (hpart i hi).2

theorem rhs_determined (hg : g.Grounded) (names : Names)
    (h : ∀ a ∈ (g.body r).alternatives, (g.alternativeTarget a).isSome) :
    ∃ pieces, Determined (Bindings.Sound g) (g.rhs names r) (.ok pieces) ∧
      references pieces = g.targetRules names r := by
  have hkind : g.kind r = (g.body r).kind := rfl
  unfold rhs
  rw [hkind]
  cases hb : g.body r with
  | sequence | choice => exact hg.listed_determined _ h
  | literal | predicate =>
      have hinline : ∃ t, g.inline names g.depth r = some [.text t] := by
        simp only [depth, inline, hb]
        exact ⟨_, rfl⟩
      obtain ⟨t, ht⟩ := hinline
      refine ⟨_, orExhausted_of_eq_some ht, ?_⟩
      simp [targetRules, hb, operands]
  | star item | plus item | option item | and item | not item =>
      have ho : (g.body r).operand? = some item := by rw [hb]; rfl
      have hr := le_size_of_mem_operands (mem_operands_of_operand? ho)
      obtain ⟨pieces, hpieces, href⟩ := hg.references_referTo names
        (Nat.lt_of_lt_of_le (hg.operand_lt ho) hr)
      obtain ⟨marked, hmarked, heq⟩ := inline_of_operand? ho hpieces
      refine ⟨marked, orExhausted_of_eq_some hmarked, heq.trans (href.trans ?_)⟩
      simp only [targetRules, hb, operands, List.map_singleton]

theorem targets_determined (hg : g.Grounded)
    (h : ∀ a ∈ (g.body r).alternatives, (g.alternativeTarget a).isSome) :
    Determined (Bindings.Sound g) (g.targets names r) (.ok (g.targetRules names r)) := by
  have habout := Determined.mapM fun i hi =>
    orExhausted_of_eq_some (g := g) (hg.subject_eq_about names (hg.operand_le (r := r) hi))
  exact (children_determined h).bind (habout.bind .pure)

theorem line_determined (hg : g.Grounded) (names : Names)
    (h : ∀ a ∈ (g.body r).alternatives, (g.alternativeTarget a).isSome) :
    ∃ line, Determined (Bindings.Sound g) (g.line names r) (.ok line) ∧ line.id = r ∧
      g.Describes names line := by
  obtain ⟨pieces, hpieces, href⟩ := hg.rhs_determined names h
  exact ⟨_, hpieces.bind .pure, rfl, rfl, pieces, hpieces, rfl, href⟩

/-! ### The walk -/

theorem walk_determined (hg : g.Grounded) (names : Names) {root : RuleId} {taken queue seen : List RuleId}
    (complete : g.Complete root) (hroot : root ≤ g.rules.size)
    (h : Frontier (g.targetRules names) root taken queue seen)
    (hfuel : g.rules.size + 1 ≤ fuel + taken.length) :
    ∃ lines, Determined (Bindings.Sound g) (walk g names fuel queue seen) (.ok lines) ∧
      queue <+: lines.map Line.id ∧ (∀ line ∈ lines, g.Describes names line) ∧
      ∃ seen', Frontier (g.targetRules names) root (taken ++ lines.map Line.id) [] seen' := by
  have hreach : ∀ r, ReflTransGen (Leads (g.targetRules names)) root r →
      g.Reaches root r ∧ r ≤ g.rules.size := by
    intro r hr
    induction hr with
    | refl => exact ⟨.refl, hroot⟩
    | tail _ ht ih => exact ⟨ih.1.trans (hg.reaches_target ht), hg.target_le ht⟩
  induction fuel, queue, seen using walk.induct generalizing taken with
  | case1 fuel seen =>
      rw [walk]
      exact ⟨[], .pure, List.nil_prefix, fun _ hl => absurd hl List.not_mem_nil, seen, by simpa using h⟩
  | case2 r queue seen =>
      -- without fuel more rules would have been seen than there are
      have hle := h.length_le fun r hr => (hreach r hr).2
      simp only [List.length_cons] at hle
      omega
  | case3 fuel r queue seen ih =>
      have hr := complete r (hreach r (h.reached r (by simp))).1
      obtain ⟨line, hline, rfl, hdescribes⟩ := hg.line_determined names hr
      obtain ⟨lines, hwalk, hprefix, hlines, seen', hlast⟩ := ih _ _ h.step (by simp; omega)
      refine ⟨line :: lines, ?_, ?_, List.forall_mem_cons.mpr ⟨hdescribes, hlines⟩, seen', ?_⟩
      · exact hline.bind ((hg.targets_determined hr).bind (hwalk.bind .pure))
      · exact List.cons_prefix_cons.mpr ⟨rfl, (List.prefix_append _ _).trans hprefix⟩
      · simpa using hlast

end Grounded

end Grammar

/-! ## Whole listings -/

namespace Scene

theorem Orderly.grounded {s : Scene V} (h : s.Orderly) : s.grammar.Grounded := by
  refine .of_layered h.layered fun slot p hp => ?_
  by_cases hs : slot < s.grammar.parserSlots.size
  · exact h.rule_le (h.assembled.consistent.mem_of_parserTarget hs hp)
  · have hsource : s.grammar.parserSource slot = .ready (.choice 0 []) := by
      simp [Grammar.parserSource, Nat.not_lt.mp hs]
    simp only [Grammar.parserTarget, hsource] at hp
    cases hp
    exact Nat.zero_le _

/-- Whatever has been done before, the listing of a root below which every forward declaration is defined
succeeds. Its first line is that of the root, it has one line for each rule that is reached from the root
along targets and no other, in the order of their distances, and each line refers to the targets of its
rule: every reference has a line, and every line but that of the root is referred to. -/
theorem listing_complete {s : Scene V} {root : RuleId} (reached : s.Reached) (hroot : s.HasRule root)
    (complete : s.grammar.Complete root) (names : Names) :
    ∃ lines, answer (s.grammar.lines names root) s.bindings = .ok lines ∧
      (lines.map Line.id).head? = some root ∧ (lines.map Line.id).Nodup ∧
      (∀ r, r ∈ lines.map Line.id ↔ ReflTransGen (Leads (s.grammar.targetRules names)) root r) ∧
      ((lines.map Line.id).Pairwise fun r r' =>
        distance (s.grammar.targetRules names) root r ≤ distance (s.grammar.targetRules names) root r') ∧
      ∀ line ∈ lines, s.grammar.Describes names line ∧
        (∀ r ∈ s.grammar.targetRules names line.id, ∃ line' ∈ lines, line'.id = r) ∧
        (line.id ≠ root → ∃ line' ∈ lines, line.id ∈ s.grammar.targetRules names line'.id) := by
  obtain ⟨lines, hwalk, hprefix, hdescribes, seen, hlast⟩ := reached.orderly.grounded.walk_determined
    names complete hroot.2 .start (Nat.le_refl _)
  rw [List.nil_append] at hlast
  have hmem : ∀ r, (∃ line ∈ lines, line.id = r) ↔
      ReflTransGen (Leads (s.grammar.targetRules names)) root r := fun r =>
    List.mem_map.symm.trans hlast.mem_iff
  refine ⟨lines, (hwalk _ reached.orderly.assembled.consistent.sound).1, ?_, ?_, fun r => hlast.mem_iff, ?_, ?_⟩
  · obtain ⟨rest, hrest⟩ := hprefix
    rw [← hrest]
    rfl
  · simpa using hlast.nodup
  · simpa using hlast.sorted
  · intro line hline
    have hreached := (hmem line.id).mp ⟨line, hline, rfl⟩
    refine ⟨hdescribes line hline, fun r hr => (hmem r).mpr (hreached.tail hr), fun hne => ?_⟩
    rcases ReflTransGen.cases_tail hreached with rfl | ⟨r, hr, hl⟩
    · exact absurd rfl hne
    · obtain ⟨line', hline', rfl⟩ := (hmem r).mpr hr
      exact ⟨line', hline', hl⟩

/-- A list whose tail, a named option, leads back to the list. -/
theorem listing_complete_cyclic :
    ∃ (s : Scene Unit) (names : Names), s.Reached ∧
      answer (s.grammar.lines names 6) s.bindings = .ok [⟨6, "list", "\"x\" <tail>"⟩, ⟨5, "tail", "<4>?"⟩,
        ⟨4, "4", "\",\" <3>"⟩, ⟨3, "3", "<list>"⟩] ∧
      ∀ r, r ∈ [6, 5, 4, 3] ↔ ReflTransGen (Leads (s.grammar.targetRules names)) 6 r := by
  let declared : Scene Unit := Scene.empty.does (Assembly.declareRule "list")
  let letter := declared.does (Assembly.node (.literal ['x']))
  let comma := letter.does (Assembly.node (.literal [',']))
  let slot := comma.does (Assembly.ruleSlot ⟨.forward 0, none⟩)
  let again := slot.does (Assembly.choice [.deferred 0])
  let more := again.does (Assembly.andThen 2 3)
  let tail := more.does (Assembly.node (.option 4))
  let list := tail.does (Assembly.andThen 1 5)
  let defined := list.does (Assembly.defineRule 0 6)
  let names := (Names.empty.set 6 "list").set 5 "tail"
  have hletter : declared.Operation letter := .node (by trivial)
  have hcomma : letter.Operation comma := .node (by trivial)
  have hslot : comma.Operation slot := by
    have hforward : 0 < comma.grammar.ruleForwards.size := by decide +kernel
    exact .ruleSlot hforward
  have hagain : slot.Operation again := by
    have hslots : 0 < slot.grammar.ruleSlots.size := by decide +kernel
    exact .choice (List.forall_mem_singleton.mpr hslots)
  have hmore : again.Operation more := .andThen (by decide +kernel) (by decide +kernel)
  have htail : more.Operation tail := by
    have hmore : more.HasRule 4 := by decide +kernel
    exact .node hmore
  have hlist : tail.Operation list := .andThen (by decide +kernel) (by decide +kernel)
  have hdefined : list.Operation defined := .defineRule (by decide +kernel) (by decide +kernel)
  have reached : defined.Reached := ((((((((ReflTransGen.single .declareRule).tail hletter).tail hcomma).tail
    hslot).tail hagain).tail hmore).tail htail).tail hlist).tail hdefined
  have hroot : defined.HasRule 6 := by decide +kernel
  obtain ⟨lines, hlines, -, -, hmem, -⟩ := listing_complete reached hroot
    (Grammar.complete_of_targets (by decide +kernel) 6) names
  have hok : Ensures (defined.grammar.lines names 6) defined.bindings
      (fun lines _ => lines = [⟨6, "list", "\"x\" <tail>"⟩, ⟨5, "tail", "<4>?"⟩,
        ⟨4, "4", "\",\" <3>"⟩, ⟨3, "3", "<list>"⟩]) fun _ _ => False := by decide +kernel
  obtain ⟨_, after, hanswer, rfl⟩ := hok.exists_ok
  cases hlines.symm.trans (answer_of_ok hanswer)
  exact ⟨defined, names, reached, hlines, hmem⟩

end Scene

end Packrat
