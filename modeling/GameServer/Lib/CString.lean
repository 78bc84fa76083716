import Mathlib.Data.List.Lex
import Mathlib.Data.List.TakeWhile

/-!
# C strings

A C string ends before its first NUL, so it holds none (`CString`). `CString.of` is what a C function sees of some bytes; the order is
that of `strcmp`, byte by byte.
-/

namespace GameServer.Lib

/-- The bytes of a string literal. -/
def literal (text : String) : List UInt8 := text.toList.map fun c => UInt8.ofNat c.toNat

structure CString where
  chars : List UInt8
  noNul : 0 ∉ chars
  deriving DecidableEq

namespace CString

variable {s t : CString} {bytes : List UInt8}

/-- `c_str()`. -/
def of (bytes : List UInt8) : CString where
  chars := bytes.takeWhile (· ≠ 0)
  noNul nul := by simpa using List.mem_takeWhile_imp nul

theorem chars_injective : Function.Injective chars := by
  rintro ⟨a, _⟩ ⟨b, _⟩ same
  cases same
  rfl

theorem chars_of (noNul : 0 ∉ bytes) : (of bytes).chars = bytes := by
  refine List.takeWhile_eq_self_iff.2 ?_
  intro c mem
  refine decide_eq_true ?_
  rintro rfl
  exact noNul mem

@[simp] theorem of_chars (s : CString) : of s.chars = s := chars_injective (chars_of s.noNul)

/-- `strcmp`. -/
instance linearOrder : LinearOrder CString :=
  LinearOrder.lift' (fun s => s.chars.map UInt8.toNat) fun _ _ same =>
    chars_injective (List.map_injective_iff.2 (fun _ _ => UInt8.toNat_inj.1) same)

end CString

example : CString.of [98] < CString.of [98, 200] ∧ ¬ CString.of [98, 200] < CString.of [98, 1, 7] := by decide

end GameServer.Lib
