/-!
# Causes of failure

Every decoder either completes or fails as a whole with one of these causes.
-/

namespace DialGraphics

inductive DecodeError
  | outOfMemory
  | notFound
  | notThisFormat
  | malformed
  | unsupportedFeature
  | badParameter
  | streamComplete
  deriving DecidableEq, Repr

def DecodeError.message : DecodeError → String
  | .outOfMemory => "out of memory"
  | .notFound => "resource not found"
  | .notThisFormat => "signature does not match this format"
  | .malformed => "malformed data"
  | .unsupportedFeature => "unsupported feature"
  | .badParameter => "bad parameter"
  | .streamComplete => "stream complete"

inductive PngError
  | notPng
  | malformed
  | unsupportedChunk
  | unsupportedInterlacing
  | unsupportedColorFormat
  | outOfMemory
  | badParameter
  | endOfStream
  deriving DecidableEq, Repr

namespace PngError

def message : PngError → String
  | .notPng => "not a PNG"
  | .malformed => "malformed PNG data"
  | .unsupportedChunk => "unsupported critical chunk"
  | .unsupportedInterlacing => "interlaced PNGs are not supported"
  | .unsupportedColorFormat => "unsupported color type or bit depth"
  | .outOfMemory => "out of memory"
  | .badParameter => "bad parameter"
  | .endOfStream => "no more frames"

def toDecodeError : PngError → DecodeError
  | .notPng => .notThisFormat
  | .malformed => .malformed
  | .unsupportedChunk | .unsupportedInterlacing | .unsupportedColorFormat => .unsupportedFeature
  | .outOfMemory => .outOfMemory
  | .badParameter => .badParameter
  | .endOfStream => .streamComplete

end PngError

def DecodeError.toPngError : DecodeError → PngError
  | .outOfMemory => .outOfMemory
  | .notThisFormat => .notPng
  | .unsupportedFeature => .unsupportedColorFormat
  | .badParameter => .badParameter
  | .streamComplete => .endOfStream
  | .notFound | .malformed => .malformed

def orFail {ε α : Type} (e : ε) : Option α → Except ε α
  | some a => .ok a
  | none => .error e

@[simp] theorem orFail_some {ε α : Type} (e : ε) (a : α) : orFail e (some a) = .ok a := rfl
@[simp] theorem orFail_none {ε α : Type} (e : ε) : orFail e (none : Option α) = .error e := rfl

/-! ### Steps that complete or fail -/

theorem map_eq_ok_iff {ε α β : Type} {f : α → β} {x : Except ε α} {b : β} :
    x.map f = .ok b ↔ ∃ a, x = .ok a ∧ f a = b := by
  cases x with
  | error e => simp [Except.map]
  | ok a => simp [Except.map]

theorem map_eq_error_iff {ε α β : Type} {f : α → β} {x : Except ε α} {e : ε} :
    x.map f = .error e ↔ x = .error e := by
  cases x with
  | error e' => simp [Except.map]
  | ok a => simp [Except.map]

theorem bind_eq_ok_iff {ε α β : Type} {f : α → Except ε β} {x : Except ε α} {b : β} :
    x.bind f = .ok b ↔ ∃ a, x = .ok a ∧ f a = .ok b := by
  cases x with
  | error e => simp [Except.bind]
  | ok a => simp [Except.bind]

theorem orFail_eq_ok_iff {ε α : Type} {e : ε} {o : Option α} {a : α} :
    orFail e o = .ok a ↔ o = some a := by
  cases o with
  | none => simp
  | some b => simp

end DialGraphics
