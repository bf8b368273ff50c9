import Mathlib.Data.List.Basic
import Mathlib.Tactic.Common

namespace Base64

/-- The URL-safe alphabet. -/
def alphabet : List Char := "ABCDEFGHIJKLMNOPQRSTUVWXYZabcdefghijklmnopqrstuvwxyz0123456789-_".toList

def digit (n : Nat) : Char := alphabet.getD n 'A'

def value (c : Char) : Nat := alphabet.idxOf c

theorem value_digit {n : Nat} (h : n < 64) : value (digit n) = n := by
  have hall : (List.range 64).all (fun n => value (digit n) = n) = true := by decide +kernel
  simpa using List.all_eq_true.mp hall n (List.mem_range.mpr h)

/-- Three bytes make four digits; the last one or two bytes make two or three. -/
def encode : List UInt8 → List Char
  | [] => []
  | [a] => [digit (a.toNat / 4), digit (a.toNat % 4 * 16)]
  | [a, b] => [digit (a.toNat / 4), digit (a.toNat % 4 * 16 + b.toNat / 16),
    digit (b.toNat % 16 * 4)]
  | a :: b :: c :: rest => digit (a.toNat / 4) :: digit (a.toNat % 4 * 16 + b.toNat / 16) ::
      digit (b.toNat % 16 * 4 + c.toNat / 64) :: digit (c.toNat % 64) :: encode rest

/-- The inverse, on what `encode` yields. -/
def decode : List Char → List UInt8
  | p :: q :: r :: s :: rest =>
    .ofNat (value p * 4 + value q / 16) :: .ofNat (value q % 16 * 16 + value r / 4) ::
      .ofNat (value r % 4 * 64 + value s) :: decode rest
  | [p, q, r] => [.ofNat (value p * 4 + value q / 16), .ofNat (value q % 16 * 16 + value r / 4)]
  | [p, q] => [.ofNat (value p * 4 + value q / 16)]
  | _ => []

theorem ofNat_eq {n : Nat} {a : UInt8} (h : n = a.toNat) : UInt8.ofNat n = a := by
  rw [h, UInt8.ofNat_toNat]

theorem decode_encode (bytes : List UInt8) : decode (encode bytes) = bytes := by
  induction bytes using encode.induct with
  | case1 => rfl
  | case2 a =>
    have ha := a.toNat_lt
    rw [encode, decode, value_digit (by omega), value_digit (by omega),
      ofNat_eq (a := a) (by omega)]
  | case3 a b =>
    have ha := a.toNat_lt
    have hb := b.toNat_lt
    rw [encode, decode, value_digit (by omega), value_digit (by omega), value_digit (by omega),
      ofNat_eq (a := a) (by omega), ofNat_eq (a := b) (by omega)]
  | case4 a b c rest ih =>
    have ha := a.toNat_lt
    have hb := b.toNat_lt
    have hc := c.toNat_lt
    rw [encode, decode, value_digit (by omega), value_digit (by omega), value_digit (by omega),
      value_digit (by omega), ih,
      ofNat_eq (a := a) (by omega), ofNat_eq (a := b) (by omega), ofNat_eq (a := c) (by omega)]

end Base64
