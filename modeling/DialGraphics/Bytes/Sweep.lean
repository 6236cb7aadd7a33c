import DialGraphics.Bytes.Basic

/-!
# Sweeps

A sweep goes over a list once, from the left, and carries a state from each element to the next.
Everything that works row by row or byte by byte with a memory of what came before is a sweep.
-/

namespace DialGraphics

variable {σ α β : Type}

def sweep (step : σ → α → σ × β) (state : σ) (xs : List α) : σ × List β :=
  go state xs []
where
  /-- The sweep with the results so far, last one first. -/
  go (state : σ) : List α → List β → σ × List β
    | [], done => (state, done.reverse)
    | x :: xs, done => go (step state x).1 xs ((step state x).2 :: done)

theorem sweep_go (step : σ → α → σ × β) (state : σ) (xs : List α) (done : List β) :
    sweep.go step state xs done
      = ((sweep.go step state xs []).1, done.reverse ++ (sweep.go step state xs []).2) := by
  induction xs generalizing state done with
  | nil => simp [sweep.go]
  | cons x xs ih =>
    simp only [sweep.go]
    rw [ih, ih _ [_]]
    simp

@[simp] theorem sweep_nil (step : σ → α → σ × β) (state : σ) : sweep step state [] = (state, []) :=
  rfl

@[simp] theorem sweep_cons (step : σ → α → σ × β) (state : σ) (x : α) (xs : List α) :
    sweep step state (x :: xs)
      = ((sweep step (step state x).1 xs).1,
          (step state x).2 :: (sweep step (step state x).1 xs).2) := by
  simp only [sweep, sweep.go]
  rw [sweep_go]
  simp

@[simp] theorem length_sweep (step : σ → α → σ × β) (state : σ) (xs : List α) :
    (sweep step state xs).2.length = xs.length := by
  induction xs generalizing state with
  | nil => rfl
  | cons x xs ih => simp [ih]

namespace Bytes

def groups (n count : Nat) (bytes : Bytes) : List Bytes :=
  (sweep (fun rest _ => (rest.drop n, rest.take n)) bytes (List.range count)).2

def wholeGroups (n : Nat) (bytes : Bytes) : List Bytes := groups n (bytes.length / n) bytes

@[simp] theorem length_groups (n count : Nat) (bytes : Bytes) :
    (groups n count bytes).length = count := by
  simp [groups]

end Bytes

end DialGraphics
