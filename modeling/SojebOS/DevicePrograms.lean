import Mathlib.Data.Nat.Notation
import Mathlib.Data.List.Basic

/-!
# Programs that talk to a device

A program sends requests to a device and goes on with the answers, or repeats a request until
an answer has a property. The device may answer in several ways. `Total` says that the
program ends with a result as required, however the device answers.
-/
namespace DevicePrograms

variable {ρ υ α β σ : Type}

/-- A program with requests `ρ` and answers `υ`. -/
inductive Program (ρ υ α : Type) where
  | done (a : α)
  | call (r : ρ) (next : υ → Program ρ υ α)
  | poll (r : ρ) (stop : υ → Bool) (next : υ → Program ρ υ α)

namespace Program

def bind : Program ρ υ α → (α → Program ρ υ β) → Program ρ υ β
  | done a, f => f a
  | call r next, f => call r fun v => (next v).bind f
  | poll r stop next, f => poll r stop fun v => (next v).bind f

instance : Monad (Program ρ υ) where
  pure := done
  bind := bind

def ask (r : ρ) : Program ρ υ υ := call r done

def tell (r : ρ) : Program ρ υ Unit := call r fun _ => done ()

def await (r : ρ) (stop : υ → Bool) : Program ρ υ Unit := poll r stop fun _ => done ()

/-- The answers to a request that is sent `n` times. -/
def askTimes (r : ρ) : ℕ → Program ρ υ (List υ)
  | 0 => pure []
  | n + 1 => do
    let v ← ask r
    let vs ← askTimes r n
    return v :: vs

def tellAll : List ρ → Program ρ υ Unit
  | [] => pure ()
  | r :: rs => do
    tell r
    tellAll rs

end Program

/-- However the device answers, it does answer, and the program ends as required. -/
inductive Total (device : σ → ρ → υ → σ → Prop) (Post : α → σ → Prop) :
    Program ρ υ α → σ → Prop where
  | done {a s} : Post a s → Total device Post (.done a) s
  | call {r next s} : (∃ v t, device s r v t) →
      (∀ v t, device s r v t → Total device Post (next v) t) → Total device Post (.call r next) s
  | poll {r stop next s} : (∃ v t, device s r v t) →
      (∀ v t, device s r v t → stop v = true → Total device Post (next v) t) →
      (∀ v t, device s r v t → stop v = false → Total device Post (.poll r stop next) t) →
      Total device Post (.poll r stop next) s

section Rules

variable {device : σ → ρ → υ → σ → Prop} {s : σ} {r : ρ}

theorem Total.bind {Mid : α → σ → Prop} {Post : β → σ → Prop} {p : Program ρ υ α}
    {f : α → Program ρ υ β} (h : Total device Mid p s)
    (hf : ∀ a t, Mid a t → Total device Post (f a) t) : Total device Post (p >>= f) s := by
  induction h with
  | done hm => exact hf _ _ hm
  | call hex _ ih => exact .call hex fun v t hd => ih v t hd
  | poll hex _ _ ih ih' =>
    exact .poll hex (fun v t hd hs => ih v t hd hs) fun v t hd hs => ih' v t hd hs

theorem Total.mono {Post Post' : α → σ → Prop} {p : Program ρ υ α} (h : Total device Post p s)
    (hp : ∀ a t, Post a t → Post' a t) : Total device Post' p s := by
  induction h with
  | done hm => exact .done (hp _ _ hm)
  | call hex _ ih => exact .call hex ih
  | poll hex _ _ ih ih' => exact .poll hex ih ih'

theorem Total.ask {Post : υ → σ → Prop} (hex : ∃ v t, device s r v t)
    (h : ∀ v t, device s r v t → Post v t) : Total device Post (Program.ask r) s :=
  .call hex fun v t hd => .done (h v t hd)

theorem Total.tell {Post : Unit → σ → Prop} (hex : ∃ v t, device s r v t)
    (h : ∀ v t, device s r v t → Post () t) : Total device Post (Program.tell r) s :=
  .call hex fun v t hd => .done (h v t hd)

/-- Waiting ends when every answer without the property makes a number smaller. -/
theorem Total.await {Post : Unit → σ → Prop} {stop : υ → Bool} (Inv : σ → Prop) (μ : σ → ℕ)
    (hex : ∀ s, Inv s → ∃ v t, device s r v t)
    (hstop : ∀ s v t, Inv s → device s r v t → stop v = true → Post () t)
    (hagain : ∀ s v t, Inv s → device s r v t → stop v = false → Inv t ∧ μ t < μ s)
    (hs : Inv s) : Total device Post (Program.await r stop) s := by
  induction hn : μ s using Nat.strongRecOn generalizing s with
  | ind n ih =>
    refine .poll (hex s hs) (fun v t hd hv => .done (hstop s v t hs hd hv)) fun v t hd hv => ?_
    obtain ⟨ht, hlt⟩ := hagain s v t hs hd hv
    exact ih (μ t) (hn ▸ hlt) ht rfl

/-- The answers are taken one after the other; `Inv vs` holds when `vs` have been taken. -/
theorem Total.askTimes {n : ℕ} (Inv : List υ → σ → Prop) {vs : List υ}
    (hex : ∀ s ws, ws.length < vs.length + n → Inv ws s → ∃ v t, device s r v t)
    (hstep : ∀ s ws v t, ws.length < vs.length + n → Inv ws s → device s r v t → Inv (ws ++ [v]) t)
    (hs : Inv vs s) :
    Total device (fun ws t => ws.length = n ∧ Inv (vs ++ ws) t) (Program.askTimes r n) s := by
  induction n generalizing vs s with
  | zero =>
    refine .done ⟨rfl, ?_⟩
    rwa [List.append_nil]
  | succ n ih =>
    have hask := Total.ask (hex s vs (by omega) hs) (hstep s vs · · (by omega) hs)
    refine .bind hask fun v t ht => ?_
    have hlen : (vs ++ [v]).length = vs.length + 1 := by simp
    have hrest := ih (fun s ws hlt => hex s ws (by omega))
      (fun s ws v t hlt => hstep s ws v t (by omega)) ht
    refine .bind hrest fun ws u hu => .done ⟨?_, ?_⟩
    · rw [List.length_cons, hu.1]
    · rw [List.append_cons]
      exact hu.2

/-- The requests are sent one after the other; `Inv rs` holds when `rs` have been sent. -/
theorem Total.tellAll {rs sent : List ρ} (Inv : List ρ → σ → Prop)
    (hex : ∀ s qs r, qs ++ [r] <+: sent ++ rs → Inv qs s → ∃ v t, device s r v t)
    (hstep : ∀ s qs r v t, qs ++ [r] <+: sent ++ rs → Inv qs s → device s r v t → Inv (qs ++ [r]) t)
    (hs : Inv sent s) :
    Total device (fun _ t => Inv (sent ++ rs) t) (Program.tellAll rs) s := by
  induction rs generalizing sent s with
  | nil =>
    refine .done ?_
    rwa [List.append_nil]
  | cons r rs ih =>
    have hpre : sent ++ [r] <+: sent ++ r :: rs := ⟨rs, by simp⟩
    have hsent : Total device (fun _ t => Inv (sent ++ [r]) t) (Program.tell r) s :=
      Total.tell (hex s sent r hpre hs) fun v t => hstep s sent r v t hpre hs
    refine .bind hsent fun _ t ht => ?_
    rw [List.append_cons] at hex hstep ⊢
    exact ih hex hstep ht

end Rules

end DevicePrograms
