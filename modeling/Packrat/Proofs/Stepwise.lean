import Packrat.Engine.Entry
import Packrat.Grammar.Listing
import Packrat.Proofs.Recognition

/-!
# What holds step by step

A relation between acts that relates the elementary steps of a run to themselves, and acts put together
from related acts to each other, relates two recognitions whose rules are accepted by related acts
(`Recognizing.acceptBy`), and two constructions alike (`Constructing.build`). A property of single acts is
such a relation. Levels are positions to which nothing goes back. What holds of acts put together and of
looking up children holds of listings (`Grammar.Lists.lines`).
-/

namespace Packrat

variable {V : Type} {g : Grammar V} {text : Buffer}
  {P : Nat → ∀ α : Type, Engine V α → Engine V α → Prop} {sees : Nat → Nat → Prop} {level : Nat}

namespace Engine

/-- Acts put together from related acts are related, and so is moving in the text. What is known at a
level of a position that was read or remembered there is `sees`. -/
structure Composes (text : Buffer) (sees : Nat → Nat → Prop)
    (P : Nat → ∀ α : Type, Engine V α → Engine V α → Prop) : Prop where
  pure {level : Nat} {α : Type} (a : α) : P level α (pure a) (pure a)
  throw {level : Nat} {α : Type} (halt : Halt) : P level α (throw halt) (throw halt)
  bind {level : Nat} {α β : Type} {act act' : Engine V α} {f f' : α → Engine V β} (h : P level α act act')
    (hf : ∀ a, P level β (f a) (f' a)) : P level β (act >>= f) (act' >>= f')
  mark {level : Nat} {β : Type} {f f' : Nat → Engine V β}
    (h : ∀ p, sees level p → P level β (f p) (f' p)) : P level β (position >>= f) (position >>= f')
  advance {level : Nat} : P level (Option Char) (advance text) (advance text)
  rewind {level p : Nat} (h : sees level p) : P level Unit (rewind text p) (rewind text p)

/-- The steps of recognition are related too. Accepting a rule takes place at the level of its start. -/
structure Recognizing (g : Grammar V) (text : Buffer) (sees : Nat → Nat → Prop)
    (P : Nat → ∀ α : Type, Engine V α → Engine V α → Prop) : Prop extends Composes text sees P where
  enter {level : Nat} {β : Type} {f f' : Nat → Engine V β}
    (h : ∀ start, sees start start → P start β (f start) (f' start)) :
    P level β (position >>= f) (position >>= f')
  consult {start : Nat} {r : RuleId} {β : Type} {f f' : Option Outcome → Engine V β}
    (h : ∀ answer, (∀ stop, answer = some (.accepted stop) → sees start stop) →
      P start β (f answer) (f' answer)) : P start β (consult ⟨r, start⟩ >>= f) (consult ⟨r, start⟩ >>= f')
  remember {start : Nat} {r : RuleId} {o : Outcome} (h : ∀ stop, o = .accepted stop → sees start stop) :
    P start Unit (remember ⟨r, start⟩ o) (remember ⟨r, start⟩ o)
  report {level : Nat} {r : RuleId} {kind : Kind} {start stop : Nat} {accepted : Bool} :
    P level Unit (report (.evaluated r kind start stop accepted))
      (report (.evaluated r kind start stop accepted))
  unmemoized {level : Nat} {act act' : Engine V Bool} (h : P level Bool act act') :
    P level Bool (unmemoized act) (unmemoized act')
  alternative {level : Nat} {r : RuleId} {a : Alternative} (h : a ∈ (g.body r).alternatives) :
    P level RuleId (resolve (g.resolveAlternative a)) (resolve (g.resolveAlternative a))

/-- The steps of construction are related too, and so is whatever recognition it uses. -/
structure Constructing (g : Grammar V) (text : Buffer) (sees : Nat → Nat → Prop)
    (P : Nat → ∀ α : Type, Engine V α → Engine V α → Prop) (acc acc' : Nat → RuleId → Engine V Bool) :
    Prop extends Composes text sees P where
  jump {level p : Nat} (h : sees level p) : P level Unit (jump text p) (jump text p)
  perform {level : Nat} (label : String) : P level Unit (perform label) (perform label)
  attempt {level : Nat} {act act' : Engine V V} (h : P level V act act') :
    P level (Option V) (attempt act) (attempt act')
  slot {level : Nat} (slot : Nat) :
    P level (Parser V) (resolve (g.resolveParser slot)) (resolve (g.resolveParser slot))
  accept {level : Nat} (fuel : Nat) (r : RuleId) : P level Bool (acc fuel r) (acc' fuel r)

/-- One level of accepting a rule, given how its children are accepted. -/
def acceptBy (g : Grammar V) (text : Buffer) (acc : RuleId → Engine V Bool) (limit : Nat) (r : RuleId) :
    Engine V Bool := do
  let start ← position
  match ← consult ⟨r, start⟩ with
  | some (.accepted stop) =>
    Engine.rewind text stop
    return true
  | some .rejected => return false
  | none =>
    let accepted ← evaluate g text acc limit (g.body r)
    let stop ← position
    remember ⟨r, start⟩ (if accepted then .accepted stop else .rejected)
    report (.evaluated r (g.kind r) start stop accepted)
    return accepted

theorem accept_succ {fuel : Nat} {r : RuleId} :
    accept g text (fuel + 1) r = acceptBy g text (accept g text fuel) fuel r := rfl

/-! ## Recognition -/

namespace Composes

theorem matchChars (h : Composes text sees P) (cs : List Char) :
    P level Bool (matchChars text cs) (matchChars text cs) := by
  induction cs with
  | nil => exact h.pure true
  | cons c cs ih =>
      apply h.bind h.advance
      intro d
      cases d with
      | none => exact h.pure false
      | some d =>
          by_cases he : d = c
          · simpa only [he, if_true] using ih
          · simpa only [he, if_false] using h.pure false

theorem matchChar (h : Composes text sees P) (test : Char → Bool) :
    P level Bool (matchChar text test) (matchChar text test) := by
  apply h.bind h.advance
  intro c
  cases c with
  | none => exact h.pure false
  | some c => exact h.pure (test c)

theorem matchAll {acc acc' : RuleId → Engine V Bool} (h : Composes text sees P)
    (hacc : ∀ r, P level Bool (acc r) (acc' r)) (rules : List RuleId) :
    P level Bool (matchAll acc rules) (matchAll acc' rules) := by
  induction rules with
  | nil => exact h.pure true
  | cons r rest ih =>
      apply h.bind (hacc r)
      intro x
      cases x with
      | true => exact ih
      | false => exact h.pure false

theorem matchMany {item item' : Engine V Bool} (h : Composes text sees P) (hi : P level Bool item item')
    (limit : Nat) : P level Unit (matchMany text item limit) (matchMany text item' limit) := by
  induction limit with
  | zero => exact h.throw _
  | succ limit ih =>
      refine h.mark fun start hstart => h.bind hi fun x => ?_
      cases x with
      | true => exact ih
      | false => exact h.rewind hstart

theorem liftCursor {α : Type} (h : Composes text sees P) (x : Except CursorError α) :
    P level α (liftCursor x) (liftCursor x) := by
  cases x with
  | ok a => exact h.pure a
  | error e => exact h.throw _

theorem next (h : Composes text sees P) : P level Char (next text) (next text) := by
  apply h.bind h.advance
  intro c
  cases c with
  | some c => exact h.pure c
  | none => exact h.mark fun _ _ => h.throw _

end Composes

namespace Recognizing

variable {acc acc' : RuleId → Engine V Bool}

theorem lookahead {item item' : Engine V Bool} (h : Recognizing g text sees P)
    (hi : P level Bool item item') : P level Bool (lookahead text item) (lookahead text item') :=
  h.mark fun _ hstart => h.bind (h.unmemoized hi) fun matched =>
    h.bind (h.rewind hstart) fun _ => h.pure matched

theorem matchFirst {r : RuleId} {start : Nat} {alternatives : List Alternative}
    (h : Recognizing g text sees P) (hacc : ∀ r, P level Bool (acc r) (acc' r)) (hstart : sees level start)
    (ha : ∀ a ∈ alternatives, a ∈ (g.body r).alternatives) :
    P level Bool (matchFirst g text acc start alternatives) (matchFirst g text acc' start alternatives) := by
  induction alternatives with
  | nil => exact h.pure false
  | cons a rest ih =>
      obtain ⟨hfirst, hrest⟩ := List.forall_mem_cons.mp ha
      refine h.bind (h.alternative hfirst) fun r => h.bind (hacc r) fun x => ?_
      cases x with
      | true => exact h.pure true
      | false => exact h.bind (h.rewind hstart) fun _ => ih hrest

theorem evaluate (h : Recognizing g text sees P) (hacc : ∀ r, P level Bool (acc r) (acc' r)) (limit : Nat)
    (r : RuleId) :
    P level Bool (evaluate g text acc limit (g.body r)) (evaluate g text acc' limit (g.body r)) := by
  cases hb : g.body r with
  | literal cs => exact h.matchChars cs
  | predicate d test => exact h.matchChar test
  | sequence rules => exact h.matchAll hacc rules
  | choice alternatives =>
      refine h.mark fun start hstart => h.matchFirst (r := r) hacc hstart fun a ha => ?_
      rw [hb]
      exact ha
  | star i => exact h.bind (h.matchMany (hacc i) limit) fun _ => h.pure true
  | plus i =>
      apply h.bind (hacc i)
      intro x
      cases x with
      | true => exact h.bind (h.matchMany (hacc i) limit) fun _ => h.pure true
      | false => exact h.pure false
  | option i =>
      refine h.mark fun start hstart => h.bind (hacc i) fun x => ?_
      cases x with
      | true => exact h.pure true
      | false => exact h.bind (h.rewind hstart) fun _ => h.pure true
  | and i => exact h.lookahead (hacc i)
  | not i => exact h.bind (h.lookahead (hacc i)) fun matched => h.pure !matched

theorem acceptBy (h : Recognizing g text sees P) (hacc : ∀ level r, P level Bool (acc r) (acc' r))
    (level limit : Nat) (r : RuleId) :
    P level Bool (acceptBy g text acc limit r) (acceptBy g text acc' limit r) := by
  refine h.enter fun start _ => h.consult fun answer hanswer => ?_
  match answer with
  | some (.accepted stop) => exact h.bind (h.rewind (hanswer stop rfl)) fun _ => h.pure true
  | some .rejected => exact h.pure false
  | none =>
      refine h.bind (h.evaluate (hacc start) limit r) fun accepted => h.mark fun stop hstop => ?_
      refine h.bind (h.remember fun stop' ho => ?_) fun _ => h.bind h.report fun _ => h.pure accepted
      cases accepted with
      | true =>
          cases ho
          exact hstop
      | false => cases ho

theorem accept (h : Recognizing g text sees P) (level fuel : Nat) (r : RuleId) :
    P level Bool (accept g text fuel r) (accept g text fuel r) := by
  induction fuel generalizing level r with
  | zero => exact h.throw _
  | succ fuel ih =>
      rw [accept_succ]
      exact h.acceptBy ih level fuel r

theorem recognize (h : Recognizing g text sees P) (level fuel : Nat) (r : RuleId) :
    P level (Option Nat) (recognize g text fuel r) (recognize g text fuel r) := by
  apply h.bind (h.accept level fuel r)
  intro accepted
  cases accepted with
  | true => exact h.mark fun stop _ => h.pure (some stop)
  | false => exact h.pure none

end Recognizing

/-! ## Construction -/

namespace Constructing

variable {acc acc' : Nat → RuleId → Engine V Bool}

theorem twoPass {build build' : Engine V V} (h : Constructing g text sees P acc acc')
    (hbuild : P level V build build') (fuel : Nat) (r : RuleId) :
    P level V (twoPass text (acc fuel) r build) (twoPass text (acc' fuel) r build') := by
  refine h.mark fun start hstart => h.bind (h.accept fuel r) fun accepted => ?_
  cases accepted with
  | true =>
      exact h.mark fun stop hstop => h.bind (h.rewind hstart) fun _ => h.bind hbuild fun value =>
        h.bind (h.jump hstop) fun _ => h.pure value
  | false => exact h.bind (h.rewind hstart) fun _ => h.throw _

theorem firstOf {parse parse' : Nat → Engine V V} (h : Constructing g text sees P acc acc')
    (hparse : ∀ slot, P level V (parse slot) (parse' slot)) (slots : List Nat) :
    P level V (firstOf parse slots) (firstOf parse' slots) := by
  induction slots with
  | nil => exact h.throw _
  | cons slot rest ih =>
      apply h.bind (h.attempt (hparse slot))
      intro value
      cases value with
      | some v => exact h.pure v
      | none => exact ih

theorem gather {item item' : Engine V V} (h : Constructing g text sees P acc acc')
    (hi : P level V item item') (limit : Nat) :
    P level (List V) (gather item limit) (gather item' limit) := by
  induction limit with
  | zero => exact h.throw _
  | succ limit ih =>
      apply h.bind (h.attempt hi)
      intro value
      cases value with
      | some v => exact h.bind ih fun rest => h.pure (v :: rest)
      | none => exact h.pure []

theorem build {parse parse' : Nat → Engine V V} (h : Constructing g text sees P acc acc')
    (hparse : ∀ slot, P level V (parse slot) (parse' slot)) (limit : Nat) (p : Parser V) :
    P level V (p.build text (acc limit) parse limit) (p.build text (acc' limit) parse' limit) := by
  induction p with
  | silent r value =>
      apply h.bind (h.accept limit r)
      intro accepted
      cases accepted with
      | true => exact h.pure value
      | false => exact h.throw _
  | character r embed => exact h.bind h.next fun c => h.pure (embed c)
  | characters r embed =>
      refine h.mark fun start _ => h.bind (h.accept limit r) fun accepted => ?_
      cases accepted with
      | true => exact h.mark fun stop _ => h.bind (h.liftCursor _) fun cs => h.pure (embed cs)
      | false => exact h.throw _
  | pair r first second label combine ihf ihs =>
      exact h.bind (h.twoPass ihf limit _) fun a => h.bind (h.twoPass ihs limit _) fun b =>
        h.bind (h.perform label) fun _ => h.pure (combine a b)
  | choice r slots => exact h.firstOf hparse slots
  | star r item collect ih =>
      exact h.bind (h.gather (h.twoPass ih limit _) limit) fun xs => h.pure (collect xs)
  | plus r item collect ih =>
      have hitem := h.twoPass ih limit item.rule
      exact h.bind hitem fun x => h.bind (h.gather hitem limit) fun xs => h.pure (collect (x :: xs))
  | option r item embed ih =>
      exact h.bind (h.attempt (h.twoPass ih limit _)) fun x => h.pure (embed x)
  | map inner label transform ih =>
      exact h.bind ih fun value => h.bind (h.perform label) fun _ => h.pure (transform value)
  | spanned inner embed ih =>
      exact h.mark fun start _ => h.bind ih fun value => h.mark fun stop _ =>
        h.bind (h.liftCursor _) fun span => h.pure (embed value span)
  | deferred r slot => exact hparse slot

theorem parseSlot (h : Constructing g text sees P (Engine.accept g text) (Engine.accept g text))
    (level limit fuel slot : Nat) :
    P level V (parseSlot g text limit fuel slot) (parseSlot g text limit fuel slot) := by
  induction fuel generalizing slot with
  | zero => exact h.throw _
  | succ fuel ih => exact h.bind (h.slot slot) fun p => h.twoPass (h.build ih limit p) limit p.rule

theorem parseAt (h : Constructing g text sees P (Engine.accept g text) (Engine.accept g text))
    (level fuel : Nat) (p : Parser V) : P level V (parseAt g text fuel p) (parseAt g text fuel p) :=
  h.twoPass (h.build (h.parseSlot level fuel fuel) fuel p) fuel p.rule

end Constructing

end Engine

/-! ## Listing -/

namespace Grammar

variable {names : Names} {P : ∀ α : Type, Resolution V α → Prop}

/-- How a rule with a list of children is written. -/
def listed (g : Grammar V) (names : Names) (divider : String) (r : RuleId) :
    Resolution V (List Piece) := do
  let parts ← (← g.children r).mapM fun child =>
    orExhausted (referTo names (g.inline names g.depth) child)
  return (parts.intersperse [.text divider]).flatten

/-- The property holds of acts put together from acts that have it, and of looking up the children of a
rule. -/
structure Lists (g : Grammar V) (P : ∀ α : Type, Resolution V α → Prop) : Prop where
  pure {α : Type} (a : α) : P α (pure a)
  throw {α : Type} (halt : Halt) : P α (throw halt)
  bind {α β : Type} {act : Resolution V α} {f : α → Resolution V β} (h : P α act) (hf : ∀ a, P β (f a)) :
    P β (act >>= f)
  children (r : RuleId) : P (List RuleId) (g.children r)

namespace Lists

theorem orExhausted {α : Type} (h : g.Lists P) (x : Option α) : P α (orExhausted x) := by
  cases x with
  | some a => exact h.pure a
  | none => exact h.throw _

theorem listed (h : g.Lists P) (divider : String) (r : RuleId) :
    P (List Piece) (g.listed names divider r) :=
  h.bind (h.children r) fun _ =>
    h.bind (mapM_of_bind h.pure h.bind fun _ _ => h.orExhausted _) fun _ => h.pure _

theorem rhs (h : g.Lists P) (r : RuleId) : P (List Piece) (g.rhs names r) := by
  unfold Grammar.rhs
  split
  · exact h.listed " " r
  · exact h.listed "/" r
  · exact h.orExhausted _

theorem line (h : g.Lists P) (r : RuleId) : P Line (g.line names r) :=
  h.bind (h.rhs r) fun _ => h.pure _

theorem targets (h : g.Lists P) (r : RuleId) : P (List RuleId) (g.targets names r) :=
  h.bind (h.children r) fun _ =>
    h.bind (mapM_of_bind h.pure h.bind fun _ _ => h.orExhausted _) fun _ => h.pure _

theorem walk (h : g.Lists P) (fuel : Nat) (queue seen : List RuleId) :
    P (List Line) (walk g names fuel queue seen) := by
  induction fuel, queue, seen using walk.induct with
  | case1 fuel seen =>
      rw [Grammar.walk]
      exact h.pure []
  | case2 r queue seen => exact h.throw _
  | case3 fuel r queue seen ih =>
      exact h.bind (h.line r) fun _ => h.bind (h.targets r) fun _ => h.bind (ih _ _) fun _ => h.pure _

theorem lines (h : g.Lists P) (root : RuleId) : P (List Line) (g.lines names root) := h.walk _ _ _

end Lists

end Grammar

end Packrat
