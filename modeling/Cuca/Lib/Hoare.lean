/-!
# Triples for programs with state and exceptions

A program keeps its state when it throws, so a triple has two postconditions: one for a value, one for what is thrown.

* `Triple` : from a state with the precondition, a value is returned in a state with the one, or a throw leaves the other;
* `Triple.bind` : one program after another.
-/

namespace Hoare
variable {ε σ α β : Type} {pre : σ → Prop} {post : α → σ → Prop} {exc : ε → σ → Prop}

def Triple (pre : σ → Prop) (x : EStateM ε σ α) (post : α → σ → Prop) (exc : ε → σ → Prop) : Prop :=
  ∀ s, pre s → match x.run s with
    | .ok a s' => post a s'
    | .error e s' => exc e s'

theorem Triple.pure {a : α} (h : ∀ s, pre s → post a s) : Triple pre (pure a : EStateM ε σ α) post exc := h

theorem Triple.throw {e : ε} (h : ∀ s, pre s → exc e s) : Triple pre (throw e : EStateM ε σ α) post exc := h

theorem Triple.bind {x : EStateM ε σ α} {f : α → EStateM ε σ β} {post : β → σ → Prop} (mid : α → σ → Prop)
    (h : Triple pre x mid exc) (h' : ∀ a, Triple (mid a) (f a) post exc) : Triple pre (x >>= f) post exc := by
  intro s hs
  have hx := h s hs
  show match EStateM.bind x f s with | .ok a s' => post a s' | .error e s' => exc e s'
  unfold EStateM.bind
  rcases hrun : x s with ⟨a, s'⟩ | ⟨e, s'⟩
  · rw [EStateM.run, hrun] at hx
    exact h' a s' hx
  · rw [EStateM.run, hrun] at hx
    exact hx

theorem Triple.get {f : σ → EStateM ε σ β} {post : β → σ → Prop} (h : ∀ s, pre s → Triple (· = s) (f s) post exc) :
    Triple pre (MonadState.get >>= f) post exc := fun s hs => h s hs s rfl

theorem Triple.of_eq {x : EStateM ε σ α} (h : ∀ s, pre s → Triple (· = s) x post exc) : Triple pre x post exc :=
  fun s hs => h s hs s rfl

theorem Triple.set {s' : σ} {post : PUnit → σ → Prop} (h : ∀ s, pre s → post ⟨⟩ s') :
    Triple pre (MonadState.set s' : EStateM ε σ PUnit) post exc := h

theorem Triple.modify {g : σ → σ} {post : PUnit → σ → Prop} (h : ∀ s, pre s → post ⟨⟩ (g s)) :
    Triple pre (modify g : EStateM ε σ PUnit) post exc := h

theorem Triple.weaken {x : EStateM ε σ α} {pre' : σ → Prop} {post' : α → σ → Prop} {exc' : ε → σ → Prop} (h : Triple pre x post exc)
    (hpre : ∀ s, pre' s → pre s) (hpost : ∀ a s, post a s → post' a s) (hexc : ∀ e s, exc e s → exc' e s) :
    Triple pre' x post' exc' := by
  intro s hs
  have hx := h s (hpre s hs)
  revert hx
  rcases x.run s with ⟨a, s'⟩ | ⟨e, s'⟩
  · exact hpost a s'
  · exact hexc e s'

theorem Triple.and {x : EStateM ε σ α} {post' : α → σ → Prop} {exc' : ε → σ → Prop} (h : Triple pre x post exc)
    (h' : Triple pre x post' exc') : Triple pre x (fun a s => post a s ∧ post' a s) (fun e s => exc e s ∧ exc' e s) := by
  intro s hs
  have hx := h s hs
  have hx' := h' s hs
  revert hx hx'
  rcases x.run s with ⟨a, s'⟩ | ⟨e, s'⟩
  · exact And.intro
  · exact And.intro

theorem Triple.ite {c : Prop} [Decidable c] {x y : EStateM ε σ α} (h : c → Triple pre x post exc) (h' : ¬ c → Triple pre y post exc) :
    Triple pre (if c then x else y) post exc := by
  split
  · exact h ‹_›
  · exact h' ‹_›

theorem Triple.run_ok {x : EStateM ε σ α} (h : Triple pre x post exc) {s s' : σ} {a : α} (hs : pre s) (hrun : x.run s = .ok a s') :
    post a s' := by
  have hx := h s hs
  rwa [hrun] at hx

theorem Triple.run_error {x : EStateM ε σ α} (h : Triple pre x post exc) {s s' : σ} {e : ε} (hs : pre s) (hrun : x.run s = .error e s') :
    exc e s' := by
  have hx := h s hs
  rwa [hrun] at hx

end Hoare
