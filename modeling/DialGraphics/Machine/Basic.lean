import DialGraphics.Allocation
import DialGraphics.Bytes.Sweep
import Mathlib.Algebra.Group.Int.Defs
import Mathlib.Algebra.Group.Nat.Defs

/-!
# Computing with machine words

The numbers of a machine have a fixed width. An operation whose result does not fit stops the
machine, and so do an index outside the bytes, a division by zero and a shift by the whole width.
Beside each operation stands when it gives its result. What may also fail with an error of its own
is `Fallible`; `settled` is what never stops the machine.
-/

namespace DialGraphics.Machine

/-- Why a machine stops. -/
inductive Trap
  | overflow
  | zeroDivisor
  | wideShift
  | outOfBounds
  | lengthMismatch
  /-- Groups of no bytes. -/
  | zeroSize
  /-- An argument that a library function does not take. -/
  | badArgument
  deriving DecidableEq, Repr

abbrev Checked (α : Type) := Except Trap α

abbrev Fallible (ε α : Type) := ExceptT ε Checked α

def settled {ε α : Type} (r : Except ε α) : Fallible ε α := ExceptT.mk (.ok r)

section

variable {ε α β : Type}

@[simp] theorem ok_bind (a : α) (f : α → Checked β) : ((.ok a : Checked α) >>= f) = f a := rfl

@[simp] theorem lift_ok (a : α) :
    (liftM (.ok a : Checked α) : Fallible ε α) = settled (.ok a) := rfl

@[simp] theorem pure_eq_settled (a : α) : (pure a : Fallible ε α) = settled (.ok a) := rfl

@[simp] theorem throw_eq_settled (e : ε) : (throw e : Fallible ε α) = settled (.error e) := rfl

@[simp] theorem settled_ok_bind (a : α) (f : α → Fallible ε β) :
    (settled (.ok a) >>= f) = f a := rfl

@[simp] theorem settled_error_bind (e : ε) (f : α → Fallible ε β) :
    (settled (.error e) >>= f) = settled (.error e) := rfl

theorem settled_bind (x : Except ε α) (f : α → Except ε β) :
    settled (x.bind f) = settled x >>= fun a => settled (f a) := by
  cases x with
  | error e => rfl
  | ok a => rfl

theorem settled_orFail_bind (e : ε) (x : Option α) (f : α → Option β) :
    settled (orFail e (x.bind f)) = settled (orFail e x) >>= fun a => settled (orFail e (f a)) := by
  cases x with
  | none => rfl
  | some a => rfl

theorem settled_map (x : Except ε α) (f : α → β) :
    settled (x.map f) = settled x >>= fun a => settled (.ok (f a)) := by
  cases x with
  | error e => rfl
  | ok a => rfl

end

/-! ### Loops -/

section

variable {σ α β : Type}

theorem mapM_eq {f : α → Checked β} {g : α → β} {xs : List α} (h : ∀ x ∈ xs, f x = .ok (g x)) :
    xs.mapM f = .ok (xs.map g) := by
  induction xs with
  | nil => rfl
  | cons x xs ih =>
    have hx := h x (List.mem_cons_self ..)
    have hxs := ih fun y hy => h y (List.mem_cons_of_mem _ hy)
    rw [List.mapM_cons, hx, ok_bind, hxs]
    rfl

/-- A loop over `0` to `n - 1` whose state after `i` rounds is `state i`. -/
theorem foldlM_range {step : σ → Nat → Checked σ} {state : Nat → σ} {n : Nat}
    (h : ∀ i < n, step (state i) i = .ok (state (i + 1))) :
    (List.range n).foldlM step (state 0) = .ok (state n) := by
  induction n with
  | zero => rfl
  | succ n ih =>
    have hbefore := ih fun i hi => h i (Nat.lt_succ_of_lt hi)
    rw [List.range_succ, List.foldlM_append, hbefore, ok_bind, List.foldlM_cons,
      h n (Nat.lt_succ_self n)]
    rfl

end

/-! ### Unsigned words -/

variable {bits a b : Nat}

def fitted (bits n : Nat) : Checked Nat := if n < 2 ^ bits then .ok n else .error .overflow

def add (bits a b : Nat) : Checked Nat := fitted bits (a + b)

def mul (bits a b : Nat) : Checked Nat := fitted bits (a * b)

def sub (a b : Nat) : Checked Nat := if b ≤ a then .ok (a - b) else .error .overflow

def div (a b : Nat) : Checked Nat := if b = 0 then .error .zeroDivisor else .ok (a / b)

def rem (a b : Nat) : Checked Nat := if b = 0 then .error .zeroDivisor else .ok (a % b)

/-- The sum, or nothing if it does not fit. -/
def sum? (bits a b : Nat) : Option Nat := if a + b < 2 ^ bits then some (a + b) else none

/-- The product, or nothing if it does not fit. -/
def product? (bits a b : Nat) : Option Nat := if a * b < 2 ^ bits then some (a * b) else none

def shiftRight (bits a n : Nat) : Checked Nat :=
  if n < bits then .ok (a >>> n) else .error .wideShift

/-- Bits that are shifted out are lost. -/
def shiftLeft (bits a n : Nat) : Checked Nat :=
  if n < bits then .ok ((a <<< n) % 2 ^ bits) else .error .wideShift

theorem add_eq (h : a + b < 2 ^ bits) : add bits a b = .ok (a + b) := if_pos h

theorem mul_eq (h : a * b < 2 ^ bits) : mul bits a b = .ok (a * b) := if_pos h

theorem sub_eq (h : b ≤ a) : sub a b = .ok (a - b) := if_pos h

theorem div_eq (h : 0 < b) : div a b = .ok (a / b) := if_neg (Nat.ne_of_gt h)

theorem rem_eq (h : 0 < b) : rem a b = .ok (a % b) := if_neg (Nat.ne_of_gt h)

theorem sum?_eq (h : a + b < 2 ^ bits) : sum? bits a b = some (a + b) := if_pos h

theorem eq_of_sum? {sum : Nat} (h : sum? bits a b = some sum) : sum = a + b := by
  unfold sum? at h
  split at h
  · exact (Option.some.inj h).symm
  · cases h

theorem product?_eq (h : a * b < 2 ^ bits) : product? bits a b = some (a * b) := if_pos h

theorem shiftRight_eq (h : b < bits) : shiftRight bits a b = .ok (a >>> b) := if_pos h

theorem shiftLeft_eq (h : b < bits) : shiftLeft bits a b = .ok ((a <<< b) % 2 ^ bits) := if_pos h

/-! ### Signed words -/

def signed (bits : Nat) (v : Int) : Checked Int :=
  if -2 ^ (bits - 1) ≤ v ∧ v < 2 ^ (bits - 1) then .ok v else .error .overflow

/-- The signed word with the bits of a number that may be too large for it. -/
def toSigned (bits : Nat) (v : Int) : Int := Int.bmod v (2 ^ bits)

/-- The unsigned word with the bits of a number that may be negative. -/
def toUnsigned (bits : Nat) (v : Int) : Nat := (v % 2 ^ bits).toNat

theorem signed_eq {v : Int} (h : -2 ^ (bits - 1) ≤ v ∧ v < 2 ^ (bits - 1)) :
    signed bits v = .ok v := if_pos h

theorem toSigned_eq {v : Int} (hbits : 0 < bits)
    (h : -2 ^ (bits - 1) ≤ v ∧ v < 2 ^ (bits - 1)) : toSigned bits v = v := by
  have hhalf : 2 ^ bits / 2 = 2 ^ (bits - 1) := Nat.pow_div hbits (by decide)
  have hwhole : 2 ^ bits = 2 * 2 ^ (bits - 1) := by
    rw [← Nat.pow_succ', Nat.succ_eq_add_one, Nat.sub_add_cancel hbits]
  have hcast : ((2 ^ (bits - 1) : Nat) : Int) = 2 ^ (bits - 1) := by push_cast; rfl
  apply Int.bmod_eq_of_le
  · omega
  · omega

theorem toUnsigned_eq {v : Int} (hlow : 0 ≤ v) (hhigh : v < 2 ^ bits) :
    toUnsigned bits v = v.toNat := by
  rw [toUnsigned, Int.emod_eq_of_lt hlow hhigh]

/-! ### Slices -/

def get (bytes : Bytes) (i : Nat) : Checked UInt8 :=
  match bytes[i]? with
  | some byte => .ok byte
  | none => .error .outOfBounds

def set (bytes : Bytes) (i : Nat) (byte : UInt8) : Checked Bytes :=
  if i < bytes.length then .ok (bytes.set i byte) else .error .outOfBounds

def splitAt (bytes : Bytes) (n : Nat) : Checked (Bytes × Bytes) :=
  if n ≤ bytes.length then .ok (bytes.take n, bytes.drop n) else .error .outOfBounds

/-- The first `n` bytes and the rest, if there are as many. -/
def pull? (n : Nat) (bytes : Bytes) : Checked (Option (Bytes × Bytes)) :=
  if n ≤ bytes.length then do
    let parts ← splitAt bytes n
    .ok (some parts)
  else .ok none

def sliceFrom (bytes : Bytes) (start : Nat) : Checked Bytes :=
  if start ≤ bytes.length then .ok (bytes.drop start) else .error .outOfBounds

def sliceTo (bytes : Bytes) (stop : Nat) : Checked Bytes :=
  if stop ≤ bytes.length then .ok (bytes.take stop) else .error .outOfBounds

/-- Moves the bytes from `start` to `stop` to `target`; the two places may overlap. -/
def copyWithin (bytes : Bytes) (start stop target : Nat) : Checked Bytes :=
  if start ≤ stop ∧ stop ≤ bytes.length ∧ target + (stop - start) ≤ bytes.length then
    .ok (bytes.move start (stop - start) target)
  else .error .outOfBounds

/-- All of the bytes replaced by others, of which there have to be as many. -/
def copyFrom (bytes new : Bytes) : Checked Bytes :=
  if bytes.length = new.length then .ok new else .error .lengthMismatch

/-- The groups of `n` bytes, and the bytes behind them that are too few for another one. -/
def wholeChunks (n : Nat) (bytes : Bytes) : Checked (List Bytes × Bytes) :=
  if n = 0 then .error .zeroSize
  else .ok (Bytes.wholeGroups n bytes, bytes.drop (n * (bytes.length / n)))

/-- The groups of `n` bytes, the last of which may have fewer. -/
def chunks (n : Nat) (bytes : Bytes) : Checked (List Bytes) := do
  let (whole, rest) ← wholeChunks n bytes
  .ok (if rest.isEmpty then whole else whole ++ [rest])

theorem get_eq {bytes : Bytes} {i : Nat} {byte : UInt8} (h : bytes[i]? = some byte) :
    get bytes i = .ok byte := by
  rw [get, h]

theorem set_eq {bytes : Bytes} {i : Nat} {byte : UInt8} (h : i < bytes.length) :
    set bytes i byte = .ok (bytes.set i byte) := if_pos h

theorem splitAt_eq {bytes : Bytes} {n : Nat} (h : n ≤ bytes.length) :
    splitAt bytes n = .ok (bytes.take n, bytes.drop n) := if_pos h

theorem pull?_eq (n : Nat) (bytes : Bytes) : pull? n bytes = .ok (Bytes.splitAt? n bytes) := by
  unfold pull? Bytes.splitAt?
  simp only [List.length_take]
  split
  · rename_i h
    rw [splitAt_eq h, ok_bind, if_pos (Nat.min_eq_left h)]
  · rename_i h
    rw [if_neg (by omega)]

theorem sliceFrom_eq {bytes : Bytes} {start : Nat} (h : start ≤ bytes.length) :
    sliceFrom bytes start = .ok (bytes.drop start) := if_pos h

theorem sliceTo_eq {bytes : Bytes} {stop : Nat} (h : stop ≤ bytes.length) :
    sliceTo bytes stop = .ok (bytes.take stop) := if_pos h

theorem copyWithin_eq {bytes : Bytes} {start stop target : Nat} (hstart : start ≤ stop)
    (hstop : stop ≤ bytes.length) (htarget : target + (stop - start) ≤ bytes.length) :
    copyWithin bytes start stop target = .ok (bytes.move start (stop - start) target) :=
  if_pos ⟨hstart, hstop, htarget⟩

theorem copyFrom_eq {bytes new : Bytes} (h : bytes.length = new.length) :
    copyFrom bytes new = .ok new := if_pos h

theorem wholeChunks_eq {n : Nat} {bytes : Bytes} (hn : 0 < n) (h : bytes.length % n = 0) :
    wholeChunks n bytes = .ok (Bytes.wholeGroups n bytes, []) := by
  have hrest : bytes.drop (n * (bytes.length / n)) = [] := by
    rw [Nat.mul_div_cancel' (Nat.dvd_of_mod_eq_zero h), List.drop_length]
  rw [wholeChunks, if_neg (Nat.ne_of_gt hn), hrest]

theorem chunks_eq {n : Nat} {bytes : Bytes} (hn : 0 < n) (h : bytes.length % n = 0) :
    chunks n bytes = .ok (Bytes.wholeGroups n bytes) := by
  rw [chunks, wholeChunks_eq hn h]
  rfl

end DialGraphics.Machine
