import Packrat.Proofs.Laws
import Packrat.Proofs.Listing

/-!
# What is written for unary rules

A lookahead is written as a mark before its operand, any other unary rule as a mark after it, and nothing is
put in parentheses. So what is written for a chain of unary rules tells the marks before and those after its
base, each in their order (`Scene.writing_eq_iff`), but not which of the two kinds were applied first
(`Scene.writing_ambiguous`).
-/

namespace Packrat

variable {V : Type}

/-! ## Marks -/

/-- A unary combinator. -/
inductive Mark where
  | star
  | plus
  | option
  | and
  | not
  deriving DecidableEq, Repr

namespace Mark

def body : Mark → RuleId → Body
  | star => .star
  | plus => .plus
  | option => .option
  | and => .and
  | not => .not

def isLookahead : Mark → Bool
  | and | not => true
  | star | plus | option => false

def symbol : Mark → Char
  | star => '*'
  | plus => '+'
  | option => '?'
  | and => '&'
  | not => '!'

/-- What is written for an operand with the mark. -/
def write (m : Mark) (pieces : List Piece) : List Piece :=
  if m.isLookahead then .text (String.singleton m.symbol) :: pieces
  else pieces ++ [.text (String.singleton m.symbol)]

/-- The marks that are written before the base, the outermost first. -/
def before (ms : List Mark) : List Mark := ms.filter isLookahead

/-- The marks that are written after the base, the outermost first. -/
def after (ms : List Mark) : List Mark := ms.filter fun m => !m.isLookahead

/-- The lookaheads are applied last: no other mark is put on a rule with a lookahead. -/
def LookaheadsLast (ms : List Mark) : Prop :=
  ms.Pairwise fun outer inner => inner.isLookahead = true → outer.isLookahead = true

instance {ms : List Mark} : Decidable (LookaheadsLast ms) :=
  inferInstanceAs (Decidable (List.Pairwise _ ms))

variable {m : Mark} {ms ms' : List Mark} {item : RuleId} {b : Body}

@[simp] theorem operand?_body : (m.body item).operand? = some item := by cases m <;> rfl

theorem exists_of_operand? (h : b.operand? = some item) : ∃ m : Mark, b = m.body item := by
  cases b with
  | star => cases h; exact ⟨star, rfl⟩
  | plus => cases h; exact ⟨plus, rfl⟩
  | option => cases h; exact ⟨option, rfl⟩
  | and => cases h; exact ⟨and, rfl⟩
  | not => cases h; exact ⟨not, rfl⟩
  | literal | predicate | sequence | choice => cases h

theorem symbol_injective : Function.Injective symbol := by
  intro m m' h
  cases m <;> cases m' <;> first | rfl | exact absurd h (by decide)

theorem before_append_after (h : LookaheadsLast ms) : before ms ++ after ms = ms := by
  induction ms with
  | nil => rfl
  | cons m ms ih =>
      obtain ⟨hm, hms⟩ := List.pairwise_cons.mp h
      have hrest := ih hms
      cases hlook : m.isLookahead with
      | true =>
          simp only [before, after, List.filter_cons, hlook, if_true, Bool.not_true, Bool.false_eq_true,
            if_false, List.cons_append]
          exact congrArg (m :: ·) hrest
      | false =>
          -- below a mark that is no lookahead there is none at all
          have hnone : before ms = [] :=
            List.filter_eq_nil_iff.mpr fun inner hinner hl => by simpa [hlook] using hm inner hinner hl
          rw [hnone, List.nil_append] at hrest
          have hbefore : before (m :: ms) = [] := by
            rw [before, List.filter_cons, hlook]
            exact hnone
          rw [hbefore, List.nil_append, after, List.filter_cons, hlook]
          exact congrArg (m :: ·) hrest

/-! ### Telling marks from what is marked -/

/-- The character stands for a lookahead. -/
def leads (c : Char) : Bool := c == '&' || c == '!'

theorem leads_symbol (m : Mark) : leads m.symbol = m.isLookahead := by cases m <;> decide

theorem countP_before : ((before ms).map symbol).countP leads = (before ms).length := by
  rw [List.countP_map, List.countP_eq_length]
  intro m hm
  rw [Function.comp_apply, leads_symbol]
  exact (List.mem_filter.mp hm).2

theorem countP_after : ((after ms).map symbol).reverse.countP leads = 0 := by
  rw [List.countP_reverse, List.countP_map, List.countP_eq_zero]
  intro m hm
  rw [Function.comp_apply, leads_symbol]
  simpa using (List.mem_filter.mp hm).2

/-- The marks before and after some characters are told from those: there are as many before as leading
characters are left over. -/
theorem marked_inj {cs : List Char} :
    (before ms).map symbol ++ cs ++ ((after ms).map symbol).reverse =
      (before ms').map symbol ++ cs ++ ((after ms').map symbol).reverse ↔
    before ms = before ms' ∧ after ms = after ms' := by
  constructor
  · intro h
    have hcount := congrArg (List.countP leads) h
    simp only [List.countP_append, countP_before, countP_after] at hcount
    have hlength : ((before ms).map symbol).length = ((before ms').map symbol).length := by
      rw [List.length_map, List.length_map]
      omega
    rw [List.append_assoc, List.append_assoc] at h
    obtain ⟨hbefore, hrest⟩ := List.append_inj h hlength
    have hafter := List.reverse_injective (List.append_cancel_left hrest)
    exact ⟨List.map_injective_iff.mpr symbol_injective hbefore,
      List.map_injective_iff.mpr symbol_injective hafter⟩
  · rintro ⟨hbefore, hafter⟩
    rw [hbefore, hafter]

end Mark

/-! ## Writing rules -/

namespace Grammar

/-- What is written for a rule where it is used. -/
def written (g : Grammar V) (names : Names) (r : RuleId) : List Piece :=
  (referTo names (g.inline names g.depth) r).getD []

/-- The text that is written for a rule where it is used. -/
def writing (g : Grammar V) (names : Names) (r : RuleId) : String :=
  String.join ((g.written names r).map (Piece.render names))

/-- The rule is made of the base by applying the marks, the last one first. None of the rules that are made
on the way has a name. -/
inductive Chain (g : Grammar V) (names : Names) (base : RuleId) : List Mark → RuleId → Prop
  | base : Chain g names base [] base
  | mark {m ms r item} (hi : Chain g names base ms item) (hb : g.body r = Mark.body m item)
      (hn : names.contains r = false) : Chain g names base (m :: ms) r

variable {g : Grammar V} {names : Names} {m : Mark} {ms ms' : List Mark} {base r r' item : RuleId} {fuel : Nat}

theorem operand?_of_mark (hb : g.body r = m.body item) : (g.body r).operand? = some item := by
  rw [hb, Mark.operand?_body]

theorem le_size_of_mark (hb : g.body r = m.body item) : r ≤ g.rules.size :=
  le_size_of_mem_operands (mem_operands_of_operand? (operand?_of_mark hb))

theorem inline_mark (hb : g.body r = m.body item) :
    g.inline names (fuel + 1) r = (referTo names (g.inline names fuel) item).map m.write := by
  rw [inline, hb]
  cases m <;> rfl

theorem exists_inline_of_operand?_none (ho : (g.body r).operand? = none) (names : Names) :
    ∃ pieces, ∀ fuel, g.inline names (fuel + 1) r = some pieces := by
  cases hb : g.body r with
  | literal | predicate | sequence | choice =>
      simp only [inline, hb]
      exact ⟨_, fun _ => rfl⟩
  | star | plus | option | and | not =>
      rw [hb] at ho
      cases ho

theorem exists_inline_of_succ {pieces : List Piece}
    (h : ∀ fuel, r ≤ fuel → g.inline names (fuel + 1) r = some pieces) :
    ∃ pieces, ∀ fuel, r < fuel → g.inline names fuel r = some pieces := by
  refine ⟨pieces, fun fuel hfuel => ?_⟩
  obtain ⟨fuel, rfl⟩ := Nat.exists_eq_succ_of_ne_zero (Nat.ne_zero_of_lt hfuel)
  exact h fuel (Nat.le_of_lt_succ hfuel)

theorem exists_referTo_of_inline (h : ∃ pieces, ∀ fuel, r < fuel → g.inline names fuel r = some pieces) :
    ∃ pieces, ∀ fuel, r < fuel → referTo names (g.inline names fuel) r = some pieces := by
  by_cases hn : names.contains r = true
  · exact ⟨_, fun _ _ => if_pos hn⟩
  · obtain ⟨pieces, hpieces⟩ := h
    exact ⟨pieces, fun fuel hfuel => (if_neg hn).trans (hpieces fuel hfuel)⟩

namespace Grounded

/-- What is written for a rule does not depend on the fuel, once that is more than the rule. -/
theorem inline_of_lt (hg : g.Grounded) (names : Names) (r : RuleId) :
    ∃ pieces, ∀ fuel, r < fuel → g.inline names fuel r = some pieces := by
  induction r using Nat.strongRecOn with
  | _ r ih =>
      cases ho : (g.body r).operand? with
      | some item =>
          obtain ⟨m, hm⟩ := Mark.exists_of_operand? ho
          have hlt := hg.operand_lt ho
          obtain ⟨pieces, hpieces⟩ := exists_referTo_of_inline (ih item hlt)
          have hmarked : ∀ fuel, r ≤ fuel → g.inline names (fuel + 1) r = some (m.write pieces) := by
            intro fuel hfuel
            rw [inline_mark hm, hpieces fuel (Nat.lt_of_lt_of_le hlt hfuel), Option.map_some]
          exact exists_inline_of_succ hmarked
      | none =>
          obtain ⟨pieces, hpieces⟩ := exists_inline_of_operand?_none ho names
          exact exists_inline_of_succ fun fuel _ => hpieces fuel

theorem referTo_of_lt (hg : g.Grounded) (names : Names) (r : RuleId) :
    ∃ pieces, ∀ fuel, r < fuel → referTo names (g.inline names fuel) r = some pieces :=
  exists_referTo_of_inline (hg.inline_of_lt names r)

theorem referTo_eq_written (hg : g.Grounded) (names : Names) (hr : r ≤ g.rules.size) (hfuel : r < fuel) :
    referTo names (g.inline names fuel) r = some (g.written names r) := by
  obtain ⟨pieces, hpieces⟩ := hg.referTo_of_lt names r
  rw [hpieces fuel hfuel, written, hpieces g.depth (Nat.lt_succ_of_le hr), Option.getD_some]

theorem inline_eq_written (hg : g.Grounded) (names : Names) (hb : g.body r = m.body item) :
    g.inline names g.depth r = some (m.write (g.written names item)) := by
  have hlt := Nat.lt_of_lt_of_le (hg.operand_lt (operand?_of_mark hb)) (le_size_of_mark hb)
  rw [depth, inline_mark hb, hg.referTo_eq_written names (Nat.le_of_lt hlt) hlt]
  rfl

theorem written_mark (hg : g.Grounded) (hb : g.body r = m.body item) (hn : names.contains r = false) :
    g.written names r = m.write (g.written names item) := by
  rw [written, referTo, hn, if_neg Bool.false_ne_true, hg.inline_eq_written names hb, Option.getD_some]

end Grounded

/-! ## Chains -/

theorem toList_writing_mark (hg : g.Grounded) (hb : g.body r = m.body item)
    (hn : names.contains r = false) : (g.writing names r).toList =
      if m.isLookahead then m.symbol :: (g.writing names item).toList
      else (g.writing names item).toList ++ [m.symbol] := by
  rw [writing, hg.written_mark hb hn, Mark.write]
  cases m.isLookahead <;> simp [writing, Piece.render]

/-- The text of a chain is that of its base between the marks, the outermost ones outside. -/
theorem Chain.toList_writing (h : g.Chain names base ms r) (hg : g.Grounded) :
    (g.writing names r).toList = (Mark.before ms).map Mark.symbol ++ (g.writing names base).toList ++
      ((Mark.after ms).map Mark.symbol).reverse := by
  induction h with
  | base => simp [Mark.before, Mark.after]
  | @mark m ms r item _ hb hn ih =>
      rw [toList_writing_mark hg hb hn, ih]
      cases hlook : m.isLookahead <;> simp [Mark.before, Mark.after, hlook]

theorem Chain.writing_inj (h : g.Chain names base ms r) (h' : g.Chain names base ms' r')
    (hg : g.Grounded) : g.writing names r = g.writing names r' ↔
      Mark.before ms = Mark.before ms' ∧ Mark.after ms = Mark.after ms' := by
  rw [← String.toList_inj, h.toList_writing hg, h'.toList_writing hg, Mark.marked_inj]

theorem Chain.line_determined (h : g.Chain names base ms r) (hg : g.Grounded) (hne : ms ≠ []) :
    Determined (Bindings.Sound g) (g.line names r)
      (.ok ⟨r, toString r, g.writing names r⟩) := by
  cases h with
  | base => exact absurd rfl hne
  | @mark m ms _ item hi hb hn =>
      have hrhs : g.rhs names r = (orExhausted (g.inline names g.depth r) : Resolution V _) := by
        have hkind : g.kind r = (m.body item).kind := congrArg Body.kind hb
        rw [rhs, hkind]
        cases m <;> rfl
      have hname : names.display r = toString r := by
        have hnone : names.get? r = none := by simpa [Names.contains] using hn
        rw [Names.display, hnone, Option.getD_none]
      have hwritten := Grounded.orExhausted_of_eq_some (g := g) (hg.inline_eq_written names hb)
      rw [← hg.written_mark hb hn, ← hrhs] at hwritten
      have hline := hwritten.bind (f := fun pieces => (pure ⟨r, names.display r,
        String.join (pieces.map (Piece.render names))⟩ : Resolution V Line)) .pure
      rwa [← hname]

theorem Chain.le_size (h : g.Chain names base ms r) (hbase : base ≤ g.rules.size) : r ≤ g.rules.size := by
  cases h with
  | base => exact hbase
  | mark _ hb _ => exact le_size_of_mark hb

end Grammar

/-! ## Chains that have been made -/

namespace Scene

variable {s : Scene V} {m : Mark} {r item : RuleId}

theorem Made.body_mark (h : s.Made (m.body item) r) : s.grammar.body r = m.body item := by
  rw [h.body_eq]
  cases m <;> rfl

theorem makeAll_mark {bodies : List Body} (h : (empty : Scene V).AllowsAll bodies) {i : Nat}
    (hi : bodies[i]? = some (m.body item)) :
    ((empty : Scene V).makeAll bodies).grammar.body (i + 1) = m.body item := by
  have hmade := makeAll_made .refl h hi
  rw [show (empty : Scene V).grammar.rules.size + 1 = 1 from rfl, Nat.add_comm] at hmade
  exact hmade.body_mark

/-- In every grammar that can be built, a chain of unary rules without names is written, where it is used and
on a line of its own. Two chains over one base are written alike if and only if they have the same lookaheads
in the same order and the same other marks in the same order. Where the lookaheads come last in both, they
are then the same chain. -/
theorem writing_eq_iff (reached : s.Reached) (names : Names) {base : RuleId} (hbase : s.HasRule base) :
    (∀ ms r, s.grammar.Chain names base ms r →
      Grammar.referTo names (s.grammar.inline names s.grammar.depth) r = some (s.grammar.written names r) ∧
      (ms ≠ [] → answer (s.grammar.describe names r) s.bindings =
        .ok ("<" ++ toString r ++ "> ::= " ++ s.grammar.writing names r))) ∧
    ∀ ms ms' r r', s.grammar.Chain names base ms r → s.grammar.Chain names base ms' r' →
      (s.grammar.writing names r = s.grammar.writing names r' ↔
        Mark.before ms = Mark.before ms' ∧ Mark.after ms = Mark.after ms') ∧
      (Mark.LookaheadsLast ms → Mark.LookaheadsLast ms' →
        s.grammar.writing names r = s.grammar.writing names r' → ms = ms') := by
  have hg := reached.orderly.grounded
  refine ⟨fun ms r h => ⟨?_, fun hne => ?_⟩, fun ms ms' r r' h h' => ⟨h.writing_inj h' hg, ?_⟩⟩
  · have hr := h.le_size hbase.2
    exact hg.referTo_eq_written names hr (Nat.lt_succ_of_le hr)
  · have hdescribe := (h.line_determined hg hne).bind
      (f := fun line => (pure line.display : Resolution V String)) .pure
    exact (hdescribe _ reached.orderly.assembled.consistent.sound).1
  · intro hlast hlast' heq
    obtain ⟨hbefore, hafter⟩ := (h.writing_inj h' hg).mp heq
    rw [← Mark.before_append_after hlast, ← Mark.before_append_after hlast', hbefore, hafter]

/-- Two chains with the same marks before and after, put on in different orders. -/
theorem writing_eq_iff_interleaved :
    let rules : List Body := [.literal ['x'], .plus 1, .option 2, .and 3, .and 2, .option 5]
    let s := (Scene.empty : Scene Unit).makeAll rules
    s.Reached ∧ s.grammar.Chain .empty 1 [.and, .option, .plus] 4 ∧
      s.grammar.Chain .empty 1 [.option, .and, .plus] 6 ∧
      s.grammar.writing .empty 4 = s.grammar.writing .empty 6 ∧
      answer (s.grammar.describe .empty 4) s.bindings = .ok "<4> ::= &\"x\"+?" := by
  intro rules s
  have hallows : (Scene.empty : Scene Unit).AllowsAll rules := by decide +kernel
  have hmade : ∀ (i : Nat) {m : Mark} {item}, rules[i]? = some (m.body item) →
      s.grammar.body (i + 1) = m.body item := fun _ _ _ => makeAll_mark hallows
  have reached : s.Reached := makeAll_leads hallows
  have hfirst : s.grammar.Chain .empty 1 [.and, .option, .plus] 4 :=
    .mark (.mark (.mark .base (hmade 1 rfl) rfl) (hmade 2 rfl) rfl) (hmade 3 rfl) rfl
  have hsecond : s.grammar.Chain .empty 1 [.option, .and, .plus] 6 :=
    .mark (.mark (.mark .base (hmade 1 rfl) rfl) (hmade 4 rfl) rfl) (hmade 5 rfl) rfl
  have hbase : s.HasRule 1 := by decide +kernel
  obtain ⟨hwritten, hiff⟩ := writing_eq_iff reached .empty hbase
  obtain ⟨hsame, -⟩ := hiff _ _ _ _ hfirst hsecond
  obtain ⟨-, hdescribe⟩ := hwritten _ _ hfirst
  have htext : s.grammar.writing .empty 4 = "&\"x\"+?" := by decide +kernel
  rw [htext] at hdescribe
  exact ⟨reached, hfirst, hsecond, hsame.mpr ⟨rfl, rfl⟩, hdescribe (List.cons_ne_nil _ _)⟩

/-- An option of a lookahead is written as a lookahead at an option is. -/
theorem writing_ambiguous :
    let rules : List Body := [.literal ['x'], .and 1, .option 2, .option 1, .and 4]
    let s := (Scene.empty : Scene Unit).makeAll rules
    s.Reached ∧ s.grammar.Chain .empty 1 [.option, .and] 3 ∧ s.grammar.Chain .empty 1 [.and, .option] 5 ∧
      [Mark.option, .and] ≠ [Mark.and, .option] ∧ s.grammar.writing .empty 3 = "&\"x\"?" ∧
      s.grammar.writing .empty 5 = "&\"x\"?" := by
  intro rules s
  have hallows : (Scene.empty : Scene Unit).AllowsAll rules := by decide +kernel
  have hmade : ∀ (i : Nat) {m : Mark} {item}, rules[i]? = some (m.body item) →
      s.grammar.body (i + 1) = m.body item := fun _ _ _ => makeAll_mark hallows
  have hfirst : s.grammar.Chain .empty 1 [.option, .and] 3 :=
    .mark (.mark .base (hmade 1 rfl) rfl) (hmade 2 rfl) rfl
  have hsecond : s.grammar.Chain .empty 1 [.and, .option] 5 :=
    .mark (.mark .base (hmade 3 rfl) rfl) (hmade 4 rfl) rfl
  exact ⟨makeAll_leads hallows, hfirst, hsecond, by decide, by decide +kernel, by decide +kernel⟩

end Scene

end Packrat
