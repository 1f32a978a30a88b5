import CriptoParser.ServiceWorld

set_option autoImplicit false

namespace CriptoParser

open Await

def carriedOut (e : Event Service) : Bool :=
  match e.reply with
  | .ok _ => true
  | .error x => x.served

theorem serve_snd (c : Call) (w : World) :
    (World.serve c w).2 =
      if carriedOut ⟨c, (World.serve c w).1⟩ then (w.arrive.effect c).next
      else w.arrive.next := by
  unfold World.serve
  cases hf : w.fault c with
  | none => rfl
  | some x => cases hx : x.served <;> simp [carriedOut, hx]

theorem serve_local {c : Call} (hc : c.isLocal = true) (w : World) :
    (World.serve c w).1 = .ok (w.arrive.answer c) := by
  simp [World.serve, World.fault, hc]

theorem serve_calm {w : World} (h : w.Calm) (c : Call) :
    World.serve c w = (.ok (w.arrive.answer c), (w.arrive.effect c).next) := by
  have hf : w.fault c = none := by
    unfold World.fault
    split
    · rfl
    · exact h w.tick
  simp only [World.serve, hf]

@[simp] theorem effect_outside (w : World) (c : Call) : (w.effect c).outside = w.outside := by
  cases c <;> rfl

@[simp] theorem effect_tick (w : World) (c : Call) : (w.effect c).tick = w.tick := by
  cases c <;> rfl

theorem serve_outside (c : Call) (w : World) : (World.serve c w).2.outside = w.outside := by
  rw [serve_snd]
  split
  · exact effect_outside w.arrive c
  · rfl

theorem serve_tick (c : Call) (w : World) : (World.serve c w).2.tick = w.tick + 1 := by
  rw [serve_snd]
  split
  · exact congrArg (· + 1) (effect_tick w.arrive c)
  · rfl

section Follows
variable {w w' : World} {es : List (Event Service)}

theorem follows_outside (h : Follows World.serve w es w') : w'.outside = w.outside :=
  follows_preserves (I := fun v => v.outside = w.outside) World.serve
    (fun c v hv => (serve_outside c v).trans hv) h rfl

theorem Await.Follows.calm (h : Follows World.serve w es w') (hw : w.Calm) : w'.Calm := by
  intro n
  rw [follows_outside h]
  exact hw n

theorem follows_tick (h : Follows World.serve w es w') : w'.tick = w.tick + es.length := by
  induction es generalizing w with
  | nil => cases h; rfl
  | cons e es ih =>
    rw [ih h.2, serve_tick, List.length_cons]
    omega

theorem clean_of_calm (hw : w.Calm) (h : Follows World.serve w es w') : Clean es := by
  induction es generalizing w with
  | nil => exact clean_nil
  | cons e es ih =>
    obtain ⟨hr, h⟩ := h
    rw [serve_calm hw] at hr
    have hcalm : (World.serve e.call w).2.Calm := fun n => by
      rw [serve_outside]
      exact hw n
    exact (clean_cons _ _).mpr ⟨⟨_, hr⟩, ih hcalm h⟩

theorem follows_local (h : Follows World.serve w es w') :
    Prog.Answered Call.isLocal es := by
  refine follows_answered World.serve (fun c m hlocal => ⟨m.arrive.answer c, ?_⟩) h
  simp [World.serve, World.fault, hlocal]

end Follows

end CriptoParser
