import Mathlib.Data.List.Basic

/-!
# Loops that read an input from the front

A loop over the rest of an input: a turn goes on with a new state and a shorter rest, leaves the loop with a result, or fails. The
loop runs for as many turns as the input is long, and one more; when every turn that goes on takes something from the input that
is enough, so the loop is what its turn says (`loop_next`, `loop_stop`) and a proof never counts turns.
-/

namespace Libft.Scan

variable {α σ β : Type*}

/-- What a turn does with the rest of the input. -/
inductive Turn (α σ β : Type*) where
  | next (state : σ) (tl : List α)
  | stop (res : β) (tl : List α)
  | fail

/-- At most `fuel` turns of a loop. -/
def run (turn : σ → List α → Turn α σ β) : Nat → σ → List α → Option (β × List α)
  | 0, _, _ => none
  | fuel + 1, s, x =>
    match turn s x with
    | .next s' tl => run turn fuel s' tl
    | .stop res tl => some (res, tl)
    | .fail => none

/-- The loop: its result, and what it leaves of the input. -/
def loop (turn : σ → List α → Turn α σ β) (s : σ) (x : List α) : Option (β × List α) :=
  run turn (x.length + 1) s x

/-- A turn that goes on takes something from the input, one that leaves the loop gives nothing back. -/
structure Consumes (turn : σ → List α → Turn α σ β) : Prop where
  next {s : σ} {x : List α} {s' : σ} {tl : List α} : turn s x = .next s' tl → tl.length < x.length
  stop {s : σ} {x : List α} {res : β} {tl : List α} :
    turn s x = .stop res tl → tl.length ≤ x.length

variable {turn : σ → List α → Turn α σ β} {s s' : σ} {x tl : List α} {res : β} {fuel fuel' : Nat} {out : β × List α}

/-- A turn that goes on uses one unit of fuel. -/
theorem run_next (ht : turn s x = .next s' tl) : run turn (fuel + 1) s x = run turn fuel s' tl := by
  rw [run, ht]

/-- A turn that stops ends the loop. -/
theorem loop_stop (ht : turn s x = .stop res tl) : loop turn s x = some (res, tl) := by
  rw [loop, run, ht]

/-- A turn that fails ends the loop without a result. -/
theorem loop_fail (ht : turn s x = .fail) : loop turn s x = none := by
  rw [loop, run, ht]

/-- Once there are more turns than the input is long, their number does not matter. -/
theorem run_eq_run (hc : Consumes turn) (hf : x.length < fuel) (hf' : x.length < fuel') :
    run turn fuel s x = run turn fuel' s x := by
  induction fuel generalizing fuel' s x with
  | zero => omega
  | succ fuel ih =>
    cases fuel' with
    | zero => omega
    | succ fuel' =>
      cases ht : turn s x with
      | next s' tl =>
        have hlt : tl.length < x.length := hc.next ht
        rw [run_next ht, run_next ht]
        exact ih (by omega) (by omega)
      | stop _ _ | fail => rw [run, run, ht]

/-- Where turns consume their input, the loop has the fuel to go on. -/
theorem loop_next (hc : Consumes turn) (ht : turn s x = .next s' tl) : loop turn s x = loop turn s' tl := by
  have hlt : tl.length < x.length := hc.next ht
  rw [loop, run_next ht]
  exact run_eq_run hc hlt (by omega)

end Libft.Scan
