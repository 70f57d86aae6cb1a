import Packrat.Proofs.Stepwise
import Packrat.Session

/-!
# Every use of a grammar is a row of look-ups

Recognition, parsing and listing change what has been found for deferred alternatives in one way only:
they look up slots, one after another. It does not matter whether they come to an answer. A row carries
what each of its look-ups has answered (`Grammar.Row`).
-/

namespace Packrat

variable {V : Type}

/-! ## What an act answers and the state that it leaves -/

section General

variable {ε σ α β : Type}

/-- The state after an act, whether it has answered or failed. -/
def stateAfter (act : EStateM ε σ α) (s : σ) : σ :=
  match act s with
  | .ok _ after => after
  | .error _ after => after

/-- What an act answers, or why it fails, without the state that it leaves. -/
def answer (act : EStateM ε σ α) (s : σ) : Except ε α :=
  match act s with
  | .ok a _ => .ok a
  | .error e _ => .error e

variable {act : EStateM ε σ α} {s after : σ}

theorem stateAfter_congr {act' : EStateM ε σ α} (h : act s = act' s) :
    stateAfter act s = stateAfter act' s := by
  simp only [stateAfter, h]

theorem stateAfter_of_ok {a : α} (h : act s = .ok a after) : stateAfter act s = after := by
  simp only [stateAfter, h]

theorem stateAfter_of_error {e : ε} (h : act s = .error e after) : stateAfter act s = after := by
  simp only [stateAfter, h]

theorem answer_congr {act' : EStateM ε σ α} (h : act s = act' s) : answer act s = answer act' s := by
  simp only [answer, h]

theorem answer_of_ok {a : α} (h : act s = .ok a after) : answer act s = .ok a := by
  simp only [answer, h]

theorem answer_of_error {e : ε} (h : act s = .error e after) : answer act s = .error e := by
  simp only [answer, h]

/-- What holds of the answer, if there is one, and of the state that the act leaves. -/
theorem Ensures.observed {P : Option α → σ → Prop}
    (h : Ensures act s (fun a => P (some a)) fun _ => P none) :
    P (answer act s).toOption (stateAfter act s) := by
  cases hr : act s with
  | ok a after =>
      rw [answer_of_ok hr, stateAfter_of_ok hr]
      exact h.of_ok hr
  | error e after =>
      rw [answer_of_error hr, stateAfter_of_error hr]
      exact h.of_error hr

theorem Ensures.stateAfter {P : σ → Prop} (h : Ensures act s (fun _ => P) fun _ => P) :
    P (stateAfter act s) := Ensures.observed (P := fun _ => P) h

theorem Ensures.of_stateAfter {P : σ → Prop} (h : P (Packrat.stateAfter act s)) :
    Ensures act s (fun _ => P) fun _ => P := by
  cases hr : act s with
  | ok a after => exact .done hr (stateAfter_of_ok hr ▸ h)
  | error e after => exact .fail hr (stateAfter_of_error hr ▸ h)

end General

/-! ## Look-ups -/

/-- A look-up of a deferred slot, with what it has answered unless it has failed. -/
structure Look (α : Type) where
  slot : Nat
  found : Option α

namespace Look

variable {α : Type} {looks more : List (Look α)} {k : Nat}

/-- What the look-ups of one slot have answered, the earliest first. -/
def answers (looks : List (Look α)) (slot : Nat) : List (Option α) :=
  (looks.filter fun look => look.slot = slot).map Look.found

@[simp] theorem answers_nil : answers ([] : List (Look α)) k = [] := rfl

@[simp] theorem answers_append : answers (looks ++ more) k = answers looks k ++ answers more k := by
  simp [answers]

@[simp] theorem answers_singleton {look : Look α} :
    answers [look] k = if look.slot = k then [look.found] else [] := by
  by_cases h : look.slot = k <;> simp [answers, h]

theorem mem_answers {found : Option α} : found ∈ answers looks k ↔ ⟨k, found⟩ ∈ looks := by
  simp only [answers, List.mem_map, List.mem_filter, decide_eq_true_eq]
  constructor
  · rintro ⟨look, ⟨hlook, rfl⟩, rfl⟩
    exact hlook
  · intro h
    exact ⟨_, ⟨h, rfl⟩, rfl⟩

end Look

/-- The look-ups of rule slots and those of parser slots, the earliest first. -/
@[ext]
structure LookUps (V : Type) where
  rules : List (Look RuleId)
  parsers : List (Look (Parser V))

namespace LookUps

def empty : LookUps V := ⟨[], []⟩

instance : Append (LookUps V) where
  append looks more := ⟨looks.rules ++ more.rules, looks.parsers ++ more.parsers⟩

variable {looks more others : LookUps V}

@[simp] theorem rules_empty : (empty : LookUps V).rules = [] := rfl

@[simp] theorem parsers_empty : (empty : LookUps V).parsers = [] := rfl

@[simp] theorem rules_append : (looks ++ more).rules = looks.rules ++ more.rules := rfl

@[simp] theorem parsers_append : (looks ++ more).parsers = looks.parsers ++ more.parsers := rfl

theorem append_empty : looks ++ empty = looks := by
  ext1 <;> simp

theorem append_assoc : looks ++ more ++ others = looks ++ (more ++ others) := by
  ext1 <;> simp

end LookUps

namespace Grammar

/-- The slot is in the table of the grammar, or an alternative of one of its rules. -/
def Mentions (g : Grammar V) (slot : Nat) : Prop :=
  slot < g.ruleSlots.size ∨ ∃ r, .deferred slot ∈ (g.body r).alternatives

/-- A look-up of a parser slot. A slot that is ready is not looked up: its parser is there. -/
def parserLooks (g : Grammar V) (slot : Nat) (b : Bindings V) : List (Look (Parser V)) :=
  match g.parserSource slot with
  | .ready _ => []
  | _ => [⟨slot, (answer (g.resolveParser slot) b).toOption⟩]

/-- The look-ups that the producer of a rule slot makes. -/
def producerLooks (g : Grammar V) (slot : Nat) (b : Bindings V) : List (Look (Parser V)) :=
  match g.ruleSource slot with
  | .parser k => g.parserLooks k b
  | _ => []

/-- A look-up of a rule slot. If nothing has been found for it, the producer makes look-ups on the way. -/
def ruleLooks (g : Grammar V) (slot : Nat) (b : Bindings V) : LookUps V where
  rules := [⟨slot, (answer (g.resolveRule slot) b).toOption⟩]
  parsers :=
    match (b.rules.get slot).resolved with
    | some _ => []
    | none => g.producerLooks slot { b with rules := b.rules.countRun slot }

/-- One look-up, with what it has answered and what it has left of what was found before. -/
inductive Looks (g : Grammar V) (b : Bindings V) : LookUps V → Bindings V → Prop
  | rule {slot} (hs : g.Mentions slot) :
      Looks g b (g.ruleLooks slot b) (stateAfter (g.resolveRule slot) b)
  | parser {slot} : Looks g b ⟨[], g.parserLooks slot b⟩ (stateAfter (g.resolveParser slot) b)

/-- Look-ups one after another. -/
inductive Row (g : Grammar V) (b : Bindings V) : LookUps V → Bindings V → Prop
  | none : Row g b .empty b
  | tail {looks more mid after} (h : Row g b looks mid) (hl : g.Looks mid more after) :
      Row g b (looks ++ more) after

namespace Row

variable {g : Grammar V} {b mid after : Bindings V} {looks more : LookUps V}

protected theorem single (h : g.Looks b looks after) : g.Row b looks after := Row.none.tail h

protected theorem trans (h : g.Row b looks mid) (h' : g.Row mid more after) :
    g.Row b (looks ++ more) after := by
  induction h' with
  | none =>
      rw [LookUps.append_empty]
      exact h
  | tail _ hl ih =>
      rw [← LookUps.append_assoc]
      exact ih.tail hl

end Row

end Grammar

/-- The act makes look-ups in the bindings that are in view, and does nothing else to them. -/
def LooksUp {σ α : Type} (g : Grammar V) (view : σ → Bindings V) (act : EStateM Halt σ α) : Prop :=
  ∀ s, ∃ looks, g.Row (view s) looks (view (stateAfter act s))

variable {g : Grammar V}

namespace LooksUp

variable {σ α β : Type} {view : σ → Bindings V} {act : EStateM Halt σ α}

theorem still (h : ∀ s, view (stateAfter act s) = view s) : LooksUp g view act := fun s => by
  rw [h s]
  exact ⟨_, .none⟩

protected theorem pure {a : α} : LooksUp g view (pure a : EStateM Halt σ α) := .still fun _ => rfl

protected theorem throw {halt : Halt} : LooksUp g view (throw halt : EStateM Halt σ α) :=
  .still fun _ => rfl

protected theorem bind {f : α → EStateM Halt σ β} (h : LooksUp g view act)
    (hf : ∀ a, LooksUp g view (f a)) : LooksUp g view (act >>= f) := by
  intro s
  obtain ⟨looks, hs⟩ := h s
  cases hr : act s with
  | ok a mid =>
      have hbind : stateAfter (act >>= f) s = stateAfter (f a) mid := by
        simp only [stateAfter, bind_of_ok hr]
      rw [stateAfter_of_ok hr] at hs
      obtain ⟨more, hmore⟩ := hf a mid
      rw [hbind]
      exact ⟨_, hs.trans hmore⟩
  | error halt mid =>
      rw [stateAfter_of_error hr] at hs
      rw [stateAfter_of_error (bind_of_error hr)]
      exact ⟨looks, hs⟩

protected theorem mapM {f : β → EStateM Halt σ α} {xs : List β} (h : ∀ x ∈ xs, LooksUp g view (f x)) :
    LooksUp g view (xs.mapM f) :=
  mapM_of_bind (P := fun _ act => LooksUp g view act) (fun _ => .pure) .bind h

end LooksUp

namespace Grammar

theorem resolveRule_looksUp {slot : Nat} (hs : g.Mentions slot) : LooksUp g id (g.resolveRule slot) :=
  fun _ => ⟨_, .single (.rule hs)⟩

theorem resolveParser_looksUp {slot : Nat} : LooksUp g id (g.resolveParser slot) :=
  fun _ => ⟨_, .single .parser⟩

end Grammar

/-! ## Listing -/

namespace Grammar

theorem resolveAlternative_looksUp {a : Alternative} (h : ∀ slot, a = .deferred slot → g.Mentions slot) :
    LooksUp g id (g.resolveAlternative a) := by
  cases a with
  | ready r => exact .pure
  | deferred slot => exact resolveRule_looksUp (h slot rfl)

theorem alternative_looksUp {r : RuleId} {a : Alternative} (ha : a ∈ (g.body r).alternatives) :
    LooksUp g id (g.resolveAlternative a) := by
  apply resolveAlternative_looksUp
  rintro slot rfl
  exact .inr ⟨r, ha⟩

theorem children_looksUp {r : RuleId} : LooksUp g id (g.children r) := by
  unfold children
  cases hb : g.body r with
  | choice alternatives =>
      refine .mapM fun a ha => alternative_looksUp (r := r) ?_
      rw [hb]
      exact ha
  | _ => exact .pure

theorem lists_looksUp : g.Lists fun _ act => LooksUp g id act where
  pure _ := .pure
  throw _ := .throw
  bind h hf := h.bind hf
  children _ := children_looksUp

end Grammar

/-! ## Recognition and construction -/

namespace Engine

variable {α : Type} {text : Buffer}

theorem resolve_looksUp {lookup : Resolution V α} (h : LooksUp g id lookup) :
    LooksUp g Run.bindings (resolve lookup) := by
  intro run
  have hafter : (stateAfter (resolve lookup) run).bindings = stateAfter lookup run.bindings := by
    unfold stateAfter resolve
    cases lookup run.bindings <;> rfl
  rw [hafter]
  exact h run.bindings

theorem unmemoized_looksUp {act : Engine V α} (h : LooksUp g Run.bindings act) :
    LooksUp g Run.bindings (unmemoized act) := by
  intro run
  have hafter : (stateAfter (unmemoized act) run).bindings =
      (stateAfter act { run with memo := .empty .none }).bindings := by
    unfold stateAfter unmemoized
    cases act { run with memo := .empty .none } <;> rfl
  rw [hafter]
  exact h { run with memo := .empty .none }

theorem attempt_looksUp {act : Engine V α} (h : LooksUp g Run.bindings act) :
    LooksUp g Run.bindings (attempt act) := by
  intro run
  have hafter : stateAfter (attempt act) run = stateAfter act run := by
    unfold stateAfter attempt
    cases act run with
    | ok a after => rfl
    | error halt after =>
        cases halt with
        | failed e => cases e <;> rfl
        | _ => rfl
  rw [hafter]
  exact h run

theorem composes_looksUp :
    Composes text (fun _ _ => True) fun _ _ (act : Engine V _) _ => LooksUp g Run.bindings act where
  pure _ := .pure
  throw _ := .throw
  bind h hf := h.bind hf
  mark h := .bind (.still fun _ => rfl) fun p => h p trivial
  advance := by
    refine .still fun run => ?_
    cases hc : text.char? run.position with
    | none => rw [stateAfter_of_ok (advance_eq_none hc)]
    | some c =>
        rw [stateAfter_of_ok (advance_eq_some hc)]
        rfl
  rewind _ := by
    unfold rewind
    split
    · exact .still fun _ => rfl
    · exact .throw

theorem recognizing_looksUp :
    Recognizing g text (fun _ _ => True) fun _ _ (act : Engine V _) _ => LooksUp g Run.bindings act where
  toComposes := composes_looksUp
  enter h := .bind (.still fun _ => rfl) fun start => h start trivial
  consult h := .bind (.still fun _ => rfl) fun answer => h answer fun _ _ => trivial
  remember _ := .still fun _ => rfl
  report := .still fun _ => rfl
  unmemoized := unmemoized_looksUp
  alternative ha := resolve_looksUp (Grammar.alternative_looksUp ha)

theorem constructing_looksUp :
    Constructing g text (fun _ _ => True) (fun _ _ (act : Engine V _) _ => LooksUp g Run.bindings act)
      (accept g text) (accept g text) where
  toComposes := composes_looksUp
  jump _ := by
    unfold jump
    split
    · exact .still fun _ => rfl
    · exact .throw
  perform _ := .still fun _ => rfl
  attempt := attempt_looksUp
  slot _ := resolve_looksUp Grammar.resolveParser_looksUp
  accept := recognizing_looksUp.accept 0

theorem reporting_looksUp {r : RuleId} {act : Engine V α} (h : LooksUp g Run.bindings act) :
    LooksUp g Run.bindings (reporting text r act) := by
  intro run
  have hafter : (stateAfter (reporting text r act) run).bindings = (stateAfter act run).bindings := by
    unfold stateAfter reporting
    cases act run with
    | ok a after => rfl
    | error halt after => cases halt <;> rfl
  rw [hafter]
  exact h run

theorem parseSpan_looksUp {fuel : Nat} {p : Parser V} :
    LooksUp g Run.bindings (parseSpan g text fuel p) := by
  refine (reporting_looksUp (constructing_looksUp.parseAt 0 fuel p)).bind fun _ =>
    .bind (.still fun _ => rfl) fun stop => ?_
  cases Span.make text 0 stop with
  | ok span => exact .pure
  | error e => exact .throw

end Engine

/-! ## Uses of a workspace -/

/-- One use of a workspace, with what it leaves of it: a recognition or a parse of an input, whatever the
rule or parser; a run of the engine from any state; a listing or a line of one; or looking up the children
of a rule or a single alternative. None of them need come to an answer. -/
inductive Workspace.Uses (w : Workspace V) : Workspace V → Prop
  | recognize {r input config} : Uses w (stateAfter (Session.recognize r input config) w)
  | parse {p input config} : Uses w (stateAfter (Session.parseSpan p input config) w)
  | accept {text fuel r run} (h : run.bindings = w.bindings) :
      Uses w (w.after (stateAfter (Engine.accept w.grammar text fuel r) run))
  | parseAt {text fuel p run} (h : run.bindings = w.bindings) :
      Uses w (w.after (stateAfter (Engine.parseAt w.grammar text fuel p) run))
  | lines {names root} : Uses w (stateAfter (Session.resolve fun g => g.lines names root) w)
  | line {names r} : Uses w (stateAfter (Session.resolve fun g => g.line names r) w)
  | children {r} : Uses w (stateAfter (Session.resolve fun g => g.children r) w)
  | resolve {a} (h : ∀ slot, a = .deferred slot → slot < w.grammar.ruleSlots.size) :
      Uses w (stateAfter (Session.resolve fun g => g.resolveAlternative a) w)
  | resolveParser {slot} : Uses w (stateAfter (Session.resolve fun g => g.resolveParser slot) w)

theorem Session.stateAfter_run {α : Type} {act : Grammar V → Engine V α} {start : Bindings V → Run V}
    {w : Workspace V} : stateAfter (Session.run act start) w =
      w.after (stateAfter (act w.grammar) (start w.bindings)) := by
  unfold stateAfter
  cases hr : act w.grammar (start w.bindings) with
  | ok a run =>
      have hobserve : observe act start w = .ok (.ok a, run) (w.after run) := by simp only [observe, hr]
      rw [Session.run, bind_of_ok hobserve]
      rfl
  | error halt run =>
      have hobserve : observe act start w = .ok (.error halt, run) (w.after run) := by
        simp only [observe, hr]
      rw [Session.run, bind_of_ok hobserve]
      rfl

theorem Session.recognize_eq_run {r : RuleId} {input : String} {config : Config} {w : Workspace V} :
    Session.recognize r input config w =
      Session.run (fun g => Engine.recognize g (.load 0 input) (w.fuel (Buffer.load 0 input).length) r)
        (Session.fresh config) w := rfl

theorem Session.parseSpan_eq_run {p : Parser V} {input : String} {config : Config} {w : Workspace V} :
    Session.parseSpan p input config w =
      Session.run (fun g => Engine.parseSpan g (.load 0 input) (w.fuel (Buffer.load 0 input).length) p)
        (Session.fresh config) w := rfl

theorem Session.stateAfter_resolve {α : Type} {lookup : Grammar V → Resolution V α} {w : Workspace V} :
    stateAfter (Session.resolve lookup) w =
      { w with bindings := stateAfter (lookup w.grammar) w.bindings } := by
  unfold stateAfter Session.resolve
  cases lookup w.grammar w.bindings <;> rfl

/-- A use leaves the grammar alone and makes look-ups. -/
theorem Workspace.Uses.looks {w w' : Workspace V} (h : w.Uses w') :
    w'.grammar = w.grammar ∧ ∃ looks, w.grammar.Row w.bindings looks w'.bindings := by
  have hlookup : ∀ {α : Type} {lookup : Grammar V → Resolution V α}, LooksUp w.grammar id (lookup w.grammar) →
      (stateAfter (Session.resolve lookup) w).grammar = w.grammar ∧
        ∃ looks, w.grammar.Row w.bindings looks (stateAfter (Session.resolve lookup) w).bindings := by
    intro α lookup hl
    rw [Session.stateAfter_resolve]
    exact ⟨rfl, hl w.bindings⟩
  have hrun : ∀ {α : Type} {act : Engine V α} {run : Run V}, LooksUp w.grammar Run.bindings act →
      run.bindings = w.bindings → (w.after (stateAfter act run)).grammar = w.grammar ∧
        ∃ looks, w.grammar.Row w.bindings looks (w.after (stateAfter act run)).bindings := by
    intro α act run hl hb
    have hr := hl run
    rw [hb] at hr
    exact ⟨rfl, hr⟩
  cases h with
  | recognize =>
      rw [stateAfter_congr Session.recognize_eq_run, Session.stateAfter_run]
      exact hrun (Engine.recognizing_looksUp.recognize 0 _ _) rfl
  | parse =>
      rw [stateAfter_congr Session.parseSpan_eq_run, Session.stateAfter_run]
      exact hrun Engine.parseSpan_looksUp rfl
  | accept hb => exact hrun (Engine.recognizing_looksUp.accept 0 _ _) hb
  | parseAt hb => exact hrun (Engine.constructing_looksUp.parseAt 0 _ _) hb
  | lines => exact hlookup (Grammar.lists_looksUp.lines _)
  | line => exact hlookup (Grammar.lists_looksUp.line _)
  | children => exact hlookup Grammar.children_looksUp
  | resolve hs => exact hlookup (Grammar.resolveAlternative_looksUp fun slot he => .inl (hs slot he))
  | resolveParser => exact hlookup Grammar.resolveParser_looksUp

end Packrat
