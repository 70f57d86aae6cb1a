import Packrat.Engine.Construction
import Packrat.Proofs.Completeness

/-!
# What acts give from a position

With enough fuel, an act of the engine may be certain to end with one answer at one position, whatever
good run it starts from there (`Gives`), or certain to be rejected where it began (`Rejects`). Both
follow the shape of the act.
-/

namespace Packrat

variable {V α β : Type}

/-- More fuel than the depth of any recognition over the text and the rounds of any repetition. -/
def Grammar.Ample (g : Grammar V) (text : Buffer) (limit : Nat) : Prop :=
  g.rules.size * (text.length + 1) + 1 + text.length < limit

theorem Grammar.exists_ample (g : Grammar V) (text : Buffer) (fuel : Nat) :
    ∃ more, g.Ample text more ∧ fuel ≤ more := by
  refine ⟨fuel + (g.rules.size * (text.length + 1) + 1 + text.length + 1), ?_, by omega⟩
  unfold Ample
  omega

/-- From every good run at `s`, the act answers `a` and ends at `e`. -/
def Gives (g : Grammar V) (text : Buffer) (act : Engine V α) (s : Nat) (a : α) (e : Nat) : Prop :=
  ∀ run : Run V, run.Good g text → run.position = s →
    Ensures act run (fun a' after => after.Good g text ∧ a' = a ∧ after.position = e) fun _ _ => False

/-- From every good run at `s`, the act is rejected and ends at `s` again. -/
def Rejects (g : Grammar V) (text : Buffer) (act : Engine V α) (s : Nat) : Prop :=
  ∀ run : Run V, run.Good g text → run.position = s →
    Ensures act run (fun _ _ => False)
      fun halt after => after.Good g text ∧ halt = .failed .rejected ∧ after.position = s

variable {g : Grammar V} {text : Buffer} {act : Engine V α} {s e e' : Nat} {a : α} {b : β}

namespace Gives

protected theorem pure : Gives g text (pure a) s a s := fun _ good hpos => .pure ⟨good, rfl, hpos⟩

protected theorem bind {f : α → Engine V β} (h : Gives g text act s a e)
    (hf : Gives g text (f a) e b e') : Gives g text (act >>= f) s b e' := by
  intro run good hpos
  apply (h run good hpos).bind
  rintro a' mid ⟨hmid, rfl, he⟩
  exact hf mid hmid he

protected theorem attempt (h : Gives g text act s a e) :
    Gives g text (Engine.attempt act) s (some a) e := by
  intro run good hpos
  obtain ⟨a', after, hok, hgood, rfl, he⟩ := (h run good hpos).exists_ok
  have hsome : Engine.attempt act run = .ok (some a') after := by
    unfold Engine.attempt
    rw [hok]
  exact .done hsome ⟨hgood, rfl, he⟩

end Gives

theorem Rejects.attempt (h : Rejects g text act s) : Gives g text (Engine.attempt act) s none s := by
  intro run good hpos
  obtain ⟨halt, after, herr, hgood, rfl, he⟩ := (h run good hpos).exists_error
  have hnone : Engine.attempt act run = .ok none after := by
    unfold Engine.attempt
    rw [herr]
  exact .done hnone ⟨hgood, rfl, he⟩

theorem Rejects.bind {f : β → Engine V α} {act : Engine V β} (h : Gives g text act s b s)
    (hf : Rejects g text (f b) s) : Rejects g text (act >>= f) s := by
  intro run good hpos
  apply ((h run good hpos).imp_right fun _ _ hn => hn.elim).bind
  rintro b' mid ⟨hmid, rfl, he⟩
  exact hf mid hmid he

namespace Engine

/-! ## Elementary steps -/

theorem position_gives : Gives g text position s s s := by
  intro run good hpos
  exact .done position_eq ⟨good, hpos, hpos⟩

theorem rewind_gives {p : Nat} (hp : p ≤ text.length) : Gives g text (rewind text p) s () p := by
  intro run good _
  exact .done (rewind_eq hp) ⟨good.moveTo hp, rfl, rfl⟩

theorem jump_gives {p : Nat} (hp : p ≤ text.length) : Gives g text (jump text p) s () p := by
  intro run good _
  exact .done (jump_eq hp) ⟨good.moveTo hp, rfl, rfl⟩

theorem advance_gives {c : Char} (hc : text.char? s = some c) :
    Gives g text (advance text) s (some c) (s + 1) := by
  intro run good hpos
  subst hpos
  obtain ⟨hp, -⟩ := Buffer.char?_eq_some_iff.mp hc
  exact .done (advance_eq_some hc) ⟨good.moveTo hp, rfl, rfl⟩

theorem next_gives {c : Char} (hc : text.char? s = some c) : Gives g text (next text) s c (s + 1) :=
  (advance_gives hc).bind .pure

theorem perform_gives {label : String} : Gives g text (perform label) s () s := by
  intro run good hpos
  exact .done perform_eq ⟨⟨good.inside, good.sound, good.correct⟩, rfl, hpos⟩

theorem resolve_gives {lookup : Resolution V α} (h : Resolution.Finds g lookup (some a)) :
    Gives g text (resolve lookup) s a s := by
  intro run good hpos
  apply (resolve_target h good).imp_left
  rintro a' after ⟨rfl, hgood, he⟩
  exact ⟨hgood, rfl, he.trans hpos⟩

/-! ## Two passes -/

section

variable {limit : Nat} {r : RuleId} {o : Outcome}

theorem accept_finds (hl : g.Ample text limit) (hm : Matches g text r s o) {run : Run V}
    (good : run.Good g text) (hpos : run.position = s) :
    Ensures (accept g text limit r) run (fun x after => after.Good g text ∧
      .ofAnswer x after.position = o) fun _ _ => False := by
  subst hpos
  obtain ⟨x, after, hok⟩ := hm.answers good hl
  have h := (accept_recognizes limit r run good).of_ok hok
  exact .done hok ⟨h.good, h.outcome.unique hm⟩

theorem accept_gives (hl : g.Ample text limit) (hm : Matches g text r s (.accepted e)) :
    Gives g text (accept g text limit r) s true e := by
  intro run good hpos
  apply (accept_finds hl hm good hpos).imp_left
  rintro x after ⟨hgood, ho⟩
  obtain ⟨rfl, he⟩ := Outcome.ofAnswer_eq_accepted_iff.mp ho
  exact ⟨hgood, rfl, he⟩

theorem twoPass_gives {build : Engine V V} {v : V} (hl : g.Ample text limit) (hs : s ≤ text.length)
    (hm : Matches g text r s (.accepted e)) (hb : Gives g text build s v e') :
    Gives g text (twoPass text (accept g text limit) r build) s v e := by
  refine position_gives.bind ((accept_gives hl hm).bind ?_)
  exact position_gives.bind ((rewind_gives hs).bind (hb.bind ((jump_gives (hm.end_le hs)).bind .pure)))

theorem twoPass_rejects {build : Engine V V} (hl : g.Ample text limit) (hs : s ≤ text.length)
    (hm : Matches g text r s .rejected) :
    Rejects g text (twoPass text (accept g text limit) r build) s := by
  intro run good hpos
  refine .step position_eq (((accept_finds hl hm good hpos).imp_right fun _ _ h => h.elim).bind ?_)
  rintro x mid ⟨hmid, ho⟩
  cases Outcome.ofAnswer_eq_rejected_iff.mp ho
  rw [hpos]
  exact .step (rewind_eq hs) (.throw ⟨hmid.moveTo hs, rfl, rfl⟩)

end

end Engine

end Packrat
