import Mathlib.Algebra.Order.Ring.Int
import Mathlib.Data.List.Basic

/-!
# Words on the wire

A `long` of 32 bits travels as four bytes, the most significant first (`htonl`, `ntohl`).
-/

namespace Sol25.Xdr

open BitVec

def bytes (v : BitVec 32) : List (BitVec 8) :=
  [v.extractLsb' 24 8, v.extractLsb' 16 8, v.extractLsb' 8 8, v.extractLsb' 0 8]

def word : List (BitVec 8) → BitVec 32
  | [a, b, c, d] => (a ++ b ++ c ++ d : BitVec 32)
  | _ => 0

@[simp] theorem length_bytes (v : BitVec 32) : (bytes v).length = 4 := rfl

@[simp] theorem word_bytes (v : BitVec 32) : word (bytes v) = v := by
  simp only [word, bytes]
  ext i small
  simp only [getElem_append, getElem_extractLsb']
  split_ifs <;> (rw [← getLsbD_eq_getElem]; congr 1; omega)

end Sol25.Xdr
