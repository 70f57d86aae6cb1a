import Packrat.Proofs.Actions
import Packrat.Proofs.Steady

/-!
# A grammar can be used again

Where every forward declaration is defined, what a recognition, a parse or a listing answers is decided by
the grammar, whatever it has been used for before (`reuse`). So the inputs of a batch can be parsed in any
order.
-/

namespace Packrat

open Engine
open Relation (ReflTransGen)

variable {V : Type} {g : Grammar V} {w w' : Workspace V} {p : Parser V} {r : RuleId}

/-! ## Workspaces over a grammar -/

/-- The workspace holds the grammar, and what has been found in it is right. -/
structure Workspace.Serves (g : Grammar V) (w : Workspace V) : Prop where
  grammar : w.grammar = g
  sound : w.bindings.Sound g

theorem Workspace.Uses.serves (h : w.Uses w') (hw : w.Serves g) : w'.Serves g := by
  obtain ⟨rfl, sound⟩ := hw
  obtain ⟨hg, looks, hrow⟩ := h.looks
  exact ⟨hg, hrow.sound sound⟩

namespace Session

theorem Steady.resolve {α : Type} {lookup : Grammar V → Resolution V α}
    (h : Steady (Bindings.Sound g) (lookup g)) : Steady (Workspace.Serves g) (Session.resolve lookup) := by
  obtain ⟨x, hx⟩ := h
  refine ⟨x, ?_⟩
  rintro w ⟨rfl, sound⟩
  obtain ⟨hanswer, hafter⟩ := hx w.bindings sound
  rw [Session.stateAfter_resolve]
  refine ⟨?_, rfl, hafter⟩
  rw [← hanswer]
  unfold answer Session.resolve
  cases lookup w.grammar w.bindings <;> rfl

/-! ## Recognition -/

/-- Where the rule has an outcome, a session finds it. -/
theorem recognize_of_matches {input o} (hw : w.Serves g) (hm : Matches g (.load 0 input) r 0 o)
    (config : Config) : answer (Session.recognize r input config) w =
      .ok (match o with | .accepted e => some e | .rejected => none) := by
  obtain ⟨rfl, sound⟩ := hw
  have good : (Session.fresh config w.bindings).Good w.grammar (.load 0 input) := .fresh sound
  obtain ⟨x, after, hok⟩ := hm.answers good (w.lt_fuel _)
  have hx := (accept_recognizes _ r _ good).of_ok hok
  rw [answer_congr Session.recognize_eq_run]
  cases o with
  | accepted e =>
      obtain ⟨rfl, he⟩ := hx.of_accepted hm
      exact answer_of_ok (Session.run_of_ok (Engine.recognize_eq_some_iff.mpr ⟨hok, he⟩))
  | rejected =>
      cases hx.of_rejected hm
      exact answer_of_ok (Session.run_of_ok (Engine.recognize_eq_none_iff.mpr hok))

theorem recognize_of_exhausted {input} (complete : g.Complete r) (hw : w.Serves g)
    (h : ∀ o, ¬ Matches g (.load 0 input) r 0 o) (config : Config) (fuel : Nat) :
    ∃ after, Engine.recognize g (.load 0 input) fuel r (Session.fresh config w.bindings) =
      .error .exhausted after := by
  obtain ⟨after, herr⟩ := accept_exhausted complete (.fresh hw.sound) h fuel
  exact ⟨after, bind_of_error herr⟩

theorem recognize_steady {input config} (complete : g.Complete r) :
    Steady (Workspace.Serves g) (Session.recognize r input config) := by
  by_cases hm : ∃ o, Matches g (.load 0 input) r 0 o
  · obtain ⟨o, hm⟩ := hm
    exact ⟨_, fun w hw => ⟨recognize_of_matches hw hm config, Workspace.Uses.recognize.serves hw⟩⟩
  · refine ⟨.error .exhausted, fun w hw => ⟨?_, Workspace.Uses.recognize.serves hw⟩⟩
    obtain ⟨after, herr⟩ := recognize_of_exhausted complete hw (not_exists.mp hm) config
      (w.fuel (Buffer.load 0 input).length)
    rw [← hw.grammar] at herr
    exact answer_of_error (Session.run_of_error herr)

theorem recognize_unsettled {input config} (complete : g.Complete r) (hw : w.Serves g) (hw' : w'.Serves g)
    (he : answer (Session.recognize r input config) w = .error .exhausted) (fuel : Nat) :
    ¬ Settled (Engine.recognize g (.load 0 input) fuel r (Session.fresh config w'.bindings)) := by
  have hnone : ∀ o, ¬ Matches g (.load 0 input) r 0 o := fun o hm => by
    cases he.symm.trans (recognize_of_matches hw hm config)
  obtain ⟨after, herr⟩ := recognize_of_exhausted complete hw' hnone config fuel
  exact fun hs => hs after herr

/-! ## Parsing -/

theorem parseSpan_of_exhausted {input} (complete : g.Complete p.rule) (hw : w.Serves g)
    (h : ∀ o, ¬ Matches g (.load 0 input) p.rule 0 o) (config : Config) (fuel : Nat) :
    ∃ after, Engine.parseSpan g (.load 0 input) fuel p (Session.fresh config w.bindings) =
      .error .exhausted after := by
  obtain ⟨after, herr⟩ := parseAt_exhausted complete (.fresh hw.sound) h fuel
  exact ⟨after, Engine.parseSpan_of_exhausted herr⟩

/-- Where the rule has an outcome, a session gives the value of the one tree or rejects the input. -/
theorem parseSpan_of_matches {input o} (hg : g.Aligned) (hp : p.Aligned g)
    (hm : Matches g (.load 0 input) p.rule 0 o) (config : Config) :
    ∃ x, x ≠ .error .exhausted ∧ Determined (Workspace.Serves g) (Session.parseSpan p input config) x := by
  obtain ⟨y, hy, -⟩ := hp.parses hg (Nat.lt_succ_self _) (Nat.zero_le _) hm
  cases y with
  | some x =>
      obtain ⟨t, ht, -⟩ := hy.exists_parsed hg hp (Nat.zero_le _)
      refine ⟨.ok ⟨t.value, ⟨.load 0 input, 0, t.stop⟩⟩, nofun, fun w hw => ⟨?_, Workspace.Uses.parse.serves hw⟩⟩
      obtain ⟨rfl, sound⟩ := hw
      obtain ⟨w', hok, -⟩ := Session.parseSpan_of_parsed hg hp sound ht config
      exact answer_of_ok hok
  | none =>
      refine ⟨.error (.failed .rejected), nofun, fun w hw => ⟨?_, Workspace.Uses.parse.serves hw⟩⟩
      obtain ⟨rfl, sound⟩ := hw
      obtain ⟨w', herr, -⟩ := Session.parseSpan_of_rejected hg hp sound hy config
      exact answer_of_error herr

theorem parseSpan_steady {input config} (hg : g.Aligned) (hp : p.Aligned g)
    (complete : g.Complete p.rule) :
    Steady (Workspace.Serves g) (Session.parseSpan p input config) := by
  by_cases hm : ∃ o, Matches g (.load 0 input) p.rule 0 o
  · obtain ⟨o, hm⟩ := hm
    obtain ⟨x, -, hx⟩ := parseSpan_of_matches hg hp hm config
    exact ⟨x, hx⟩
  · refine ⟨.error .exhausted, fun w hw => ⟨?_, Workspace.Uses.parse.serves hw⟩⟩
    obtain ⟨after, herr⟩ := parseSpan_of_exhausted complete hw (not_exists.mp hm) config
      (w.fuel (Buffer.load 0 input).length)
    rw [← hw.grammar] at herr
    exact answer_of_error (Session.run_of_error herr)

theorem parseSpan_unsettled {input config} (hg : g.Aligned) (hp : p.Aligned g)
    (complete : g.Complete p.rule) (hw : w.Serves g) (hw' : w'.Serves g)
    (he : answer (Session.parseSpan p input config) w = .error .exhausted) (fuel : Nat) :
    ¬ Settled (Engine.parseSpan g (.load 0 input) fuel p (Session.fresh config w'.bindings)) := by
  have hnone : ∀ o, ¬ Matches g (.load 0 input) p.rule 0 o := fun o hm => by
    obtain ⟨x, hx, hdetermined⟩ := parseSpan_of_matches hg hp hm config
    exact hx ((hdetermined w hw).1.symm.trans he)
  obtain ⟨after, herr⟩ := parseSpan_of_exhausted complete hw' hnone config fuel
  exact fun hs => hs after herr

theorem capture_steady {α : Type} {act : Session V α} (h : Steady (Workspace.Serves g) act) :
    Steady (Workspace.Serves g) (Session.capture act) := by
  obtain ⟨x, hx⟩ := h
  have hstate : ∀ w, stateAfter (Session.capture act) w = stateAfter act w := fun w => by
    unfold stateAfter Session.capture
    cases act w with
    | ok a after => rfl
    | error halt after => cases halt <;> rfl
  have hgives : ∀ y, (∀ w, answer act w = x → answer (Session.capture act) w = y) →
      Steady (Workspace.Serves g) (Session.capture act) := fun y hy =>
    ⟨y, fun w hw => ⟨hy w (hx w hw).1, hstate w ▸ (hx w hw).2⟩⟩
  rcases x with (e | fault | _) | a
  · refine hgives (.ok (.error e)) fun w hw => ?_
    simp only [answer, Session.capture, answer_eq_error_iff.mp hw]
  · refine hgives (.error (.faulted fault)) fun w hw => ?_
    simp only [answer, Session.capture, answer_eq_error_iff.mp hw]
  · refine hgives (.error .exhausted) fun w hw => ?_
    simp only [answer, Session.capture, answer_eq_error_iff.mp hw]
  · refine hgives (.ok (.ok a)) fun w hw => ?_
    simp only [answer, Session.capture, answer_eq_ok_iff.mp hw]

theorem parse_steady {input config} (hg : g.Aligned) (hp : p.Aligned g) (complete : g.Complete p.rule) :
    Steady (Workspace.Serves g) (Session.capture (Session.parse p input config)) :=
  capture_steady ((parseSpan_steady hg hp complete).bind fun _ => .pure)

/-! ## Batches -/

/-- Parses inputs in any order; each answer goes with the index of its input. -/
def parseScattered (p : Parser V) (config : Config) (order : List (String × Nat)) :
    Session V (List (Except ParseError V × Nat)) :=
  order.mapM fun (input, index) => do
    let x ← capture (parse p input config)
    return (x, index)

section

variable (hg : g.Aligned) (hp : p.Aligned g) (complete : g.Complete p.rule) (hw : w.Serves g)
  (hw' : w'.Serves g)

include hg hp complete hw hw'

/-- A batch answers for each input what a parse of it answers on its own. -/
theorem parseBatch_answer {inputs config} : answer (Session.parseBatch p inputs config) w' =
    inputs.mapM fun input => answer (capture (parse p input config)) w := by
  have hparse : ∀ input, Steady (Workspace.Serves g) (capture (parse p input config)) :=
    fun _ => parse_steady hg hp complete
  rw [Session.parseBatch, Steady.answer_mapM (fun input _ => hparse input) hw']
  exact congrArg (inputs.mapM ·) (funext fun input => (hparse input).answer_eq hw hw')

theorem parseScattered_answer {order config} : answer (parseScattered p config order) w' =
    order.mapM fun x => do return (← answer (capture (parse p x.1 config)) w, x.2) := by
  have hparse : ∀ input, Steady (Workspace.Serves g) (capture (parse p input config)) :=
    fun _ => parse_steady hg hp complete
  rw [parseScattered, Steady.answer_mapM (fun x _ => (hparse x.1).bind fun _ => .pure) hw']
  refine congrArg (order.mapM ·) (funext fun x => ?_)
  rw [← (hparse x.1).answer_eq hw hw']
  exact answer_bind_pure

end

end Session

section Scattered

variable {ε α β : Type} {f : α → Except ε β}

theorem mapM_eq_ok_iff {xs : List α} {ys : List β} :
    xs.mapM f = .ok ys ↔ List.Forall₂ (fun x y => f x = .ok y) xs ys := by
  induction xs generalizing ys with
  | nil => cases ys <;> simp [pure, Except.pure]
  | cons x xs ih =>
      rw [List.mapM_cons]
      cases hx : f x with
      | error e => cases ys <;> simp [bind, Except.bind, hx]
      | ok y =>
          cases hxs : xs.mapM f with
          | error e => cases ys <;> simp [bind, Except.bind, hx, ← ih, hxs]
          | ok ys' => cases ys <;> simp [bind, Except.bind, pure, Except.pure, hx, ← ih, hxs]

theorem forall₂_zipIdx {R : α → β → Prop} {xs : List α} {ys : List β} (h : List.Forall₂ R xs ys)
    (n : Nat) : List.Forall₂ (fun x y => R x.1 y.1 ∧ x.2 = y.2) (xs.zipIdx n) (ys.zipIdx n) := by
  induction h generalizing n with
  | nil => exact .nil
  | cons hxy _ ih =>
      rw [List.zipIdx_cons, List.zipIdx_cons]
      exact .cons ⟨hxy, rfl⟩ (ih (n + 1))

/-- Answers that were found in another order are the same at every index. -/
theorem mapM_scattered {xs : List α} {ys : List β} {order : List (α × Nat)}
    (h : xs.mapM f = .ok ys) (horder : order.Perm xs.zipIdx) :
    ∃ found, (order.mapM fun x => do return (← f x.1, x.2)) = .ok found ∧ found.Perm ys.zipIdx := by
  obtain ⟨found, hfound, hperm⟩ :=
    List.perm_comp_forall₂ horder (forall₂_zipIdx (mapM_eq_ok_iff.mp h) 0)
  refine ⟨found, mapM_eq_ok_iff.mpr (hfound.imp ?_), hperm⟩
  rintro ⟨x, n⟩ ⟨y, m⟩ ⟨hxy, rfl⟩
  simp [hxy, bind, Except.bind, pure, Except.pure]

end Scattered

/-! ## Any history -/

theorem Workspace.Serves.of_uses (uses : ReflTransGen Workspace.Uses w w') (hw : w.Serves g) :
    w'.Serves g := by
  induction uses with
  | refl => exact hw
  | tail _ hu ih => exact hu.serves ih

/-- Where every forward declaration is defined, recognitions, parses and listings answer after any uses of
the grammar what they answer without them, and if that is that fuel has run out, then no fuel is enough.
So a batch answers for each input what a parse of it answers on its own, and parsing the inputs in another
order, after any uses, answers the same at every index. Answers that carry spans agree up to the identity
of the copies of the input that were loaded for them. -/
theorem reuse {known} (assembled : Assembled w known)
    (defined : ∀ slot < w.grammar.ruleSlots.size, (w.grammar.ruleTarget slot).isSome)
    (uses : ReflTransGen Workspace.Uses w w') :
    (∀ r input config,
      answer (Session.recognize r input config) w' = answer (Session.recognize r input config) w ∧
      (answer (Session.recognize r input config) w = .error .exhausted → ∀ fuel, ¬ Settled
        (Engine.recognize w'.grammar (.load 0 input) fuel r (Session.fresh config w'.bindings)))) ∧
    (∀ p ∈ known, ∀ input config,
      answer (Session.parseSpan p input config) w' = answer (Session.parseSpan p input config) w ∧
      (answer (Session.parseSpan p input config) w = .error .exhausted → ∀ fuel, ¬ Settled
        (Engine.parseSpan w'.grammar (.load 0 input) fuel p (Session.fresh config w'.bindings)))) ∧
    (∀ names root, answer (Session.resolve fun g => g.lines names root) w' =
      answer (Session.resolve fun g => g.lines names root) w) ∧
    ∀ p ∈ known, ∀ inputs config,
      answer (Session.parseBatch p inputs config) w' =
        (inputs.mapM fun input => answer (Session.capture (Session.parse p input config)) w) ∧
      ∀ order : List (String × Nat), order.Perm inputs.zipIdx → ∀ answers,
        answer (Session.parseBatch p inputs config) w = .ok answers →
          ∃ found, answer (Session.parseScattered p config order) w' = .ok found ∧
            found.Perm answers.zipIdx := by
  have hg := assembled.consistent.aligned_slots
  have complete := Grammar.complete_of_targets defined
  have hw : w.Serves w.grammar := ⟨rfl, assembled.consistent.sound⟩
  have hw' : w'.Serves w.grammar := hw.of_uses uses
  have hgrammar := hw'.grammar
  refine ⟨fun r input config => ⟨?_, fun he => ?_⟩, fun p hp input config => ⟨?_, fun he => ?_⟩, ?_, ?_⟩
  · exact (Session.recognize_steady (complete r)).answer_eq hw hw'
  · exact hgrammar ▸ Session.recognize_unsettled (complete r) hw hw' he
  · have hpa := assembled.consistent.aligned hp
    exact (Session.parseSpan_steady hg hpa (complete p.rule)).answer_eq hw hw'
  · have hpa := assembled.consistent.aligned hp
    exact hgrammar ▸ Session.parseSpan_unsettled hg hpa (complete p.rule) hw hw' he
  · intro names root
    exact (Session.Steady.resolve ((Grammar.lists_steady defined).lines root)).answer_eq hw hw'
  · intro p hp inputs config
    have hpa := assembled.consistent.aligned hp
    refine ⟨Session.parseBatch_answer hg hpa (complete p.rule) hw hw', fun order horder answers hok => ?_⟩
    rw [Session.parseScattered_answer hg hpa (complete p.rule) hw hw']
    rw [Session.parseBatch_answer hg hpa (complete p.rule) hw hw] at hok
    exact mapM_scattered hok horder

/-- A grammar after a match, a listing and a rejection, none of which anything later can tell. -/
theorem reuse_lambda :
    ∃ w' : Workspace Lambda.Piece, ReflTransGen Workspace.Uses Lambda.workspace w' ∧
      (w'.bindings.rules.get 0).resolved.isSome ∧
      answer (Session.recognize Lambda.root.rule "(λx.x)y" .memoized) w' = .ok (some 7) ∧
      ∃ x y, answer (Session.parseBatch Lambda.root ["x", ")"] .unmemoized) w' = .ok [x, y] ∧
        x.toOption.map Lambda.Piece.render = some "x" ∧ y.toOption.isNone ∧
        ∃ found, answer (Session.parseScattered Lambda.root .unmemoized [(")", 1), ("x", 0)]) w' =
          .ok found ∧ found.Perm [(x, 0), (y, 1)] := by
  obtain ⟨known, assembled, hroot⟩ := Lambda.assembled
  have defined : ∀ slot < Lambda.workspace.grammar.ruleSlots.size,
      (Lambda.workspace.grammar.ruleTarget slot).isSome := by decide +kernel
  obtain ⟨w', uses, hfound⟩ : ∃ w', ReflTransGen Workspace.Uses Lambda.workspace w' ∧
      (w'.bindings.rules.get 0).resolved.isSome := by
    let matched := stateAfter (Session.recognize Lambda.root.rule "λx.xx" .memoized) Lambda.workspace
    let listed := stateAfter (Session.resolve fun g => g.lines .empty Lambda.root.rule) matched
    let rejected := stateAfter (Session.parseSpan Lambda.root "λ" .unmemoized) listed
    exact ⟨rejected, ((ReflTransGen.single .recognize).tail .lines).tail .parse, by decide +kernel⟩
  have hmatch : Ensures (Session.recognize Lambda.root.rule "(λx.x)y" .memoized) Lambda.workspace
      (fun o _ => o = some 7) fun _ _ => False := by decide +kernel
  have hparse : Ensures (Session.parseBatch Lambda.root ["x", ")"] .unmemoized) Lambda.workspace
      (fun answers _ => answers.map (fun x => x.toOption.map Lambda.Piece.render) = [some "x", none])
      fun _ _ => False := by decide +kernel
  obtain ⟨_, _, hok, rfl⟩ := hmatch.exists_ok
  obtain ⟨answers, _, hanswers, hvalues⟩ := hparse.exists_ok
  obtain ⟨hrecognize, -, -, hbatch⟩ := reuse assembled defined uses
  obtain ⟨-, -, -, hbefore⟩ := reuse assembled defined .refl
  have hsame := (hbatch Lambda.root hroot ["x", ")"] .unmemoized).1.trans
    (hbefore Lambda.root hroot ["x", ")"] .unmemoized).1.symm
  obtain ⟨x, y, rfl⟩ : ∃ x y, answers = [x, y] := by
    have hlength := congrArg List.length hvalues
    rw [List.length_map] at hlength
    exact List.length_eq_two.mp hlength
  obtain ⟨hx, hy⟩ : x.toOption.map Lambda.Piece.render = some "x" ∧
      y.toOption.map Lambda.Piece.render = none := by
    simpa only [List.map_cons, List.map_nil, List.cons.injEq, and_true] using hvalues
  refine ⟨w', uses, hfound, (hrecognize _ _ _).1.trans (answer_of_ok hok), x, y,
    hsame.trans (answer_of_ok hanswers), hx, ?_, ?_⟩
  · simpa using hy
  · exact (hbatch Lambda.root hroot ["x", ")"] .unmemoized).2 _ (List.Perm.swap _ _ _) _
      (answer_of_ok hanswers)

end Packrat
