import Mathlib.Tactic.IntervalCases
import MalapropOS.Lib.LineChannel

/-! The UART disk driver of `disk.c`, over the hexadecimal input and output of `PL011.c`.
A buffer of `n` bytes is a list of length `n`. -/
namespace MalapropOS.Disk
open LineChannel

abbrev Bytes := List UInt8

def space : UInt8 := 0x20
def newline : UInt8 := 0x0a

def xtoi (x : UInt8) : Int :=
  if 48 ≤ x.toNat ∧ x.toNat ≤ 57 then x.toNat - 48
  else if 97 ≤ x.toNat ∧ x.toNat ≤ 102 then 10 + (x.toNat - 97)
  else if 65 ≤ x.toNat ∧ x.toNat ≤ 70 then 10 + (x.toNat - 65)
  else -1

def itox (x : Int) : UInt8 :=
  if 0 ≤ x ∧ x ≤ 9 then UInt8.ofInt (48 + x)
  else if 10 ≤ x ∧ x ≤ 15 then UInt8.ofInt (65 + (x - 10))
  else UInt8.ofInt (-1)

def pl011Putc (x : UInt8) : Prog UInt8 Unit := .putc x (.ret ())

def pl011Getc : Prog UInt8 UInt8 := .getc .ret

def pl011Puth (x : UInt8) : Prog UInt8 Unit := do
  pl011Putc (itox ((x >>> 4) &&& 0xF).toNat)
  pl011Putc (itox ((x >>> 0) &&& 0xF).toNat)

def pl011Geth : Prog UInt8 UInt8 := do
  let x := UInt8.ofInt (xtoi (← pl011Getc) * 16)
  return x ||| UInt8.ofInt (xtoi (← pl011Getc))

def addrPuth (x : UInt32) : Prog UInt8 Unit := do
  pl011Puth ((x >>> 0) &&& 0xFF).toUInt8
  pl011Puth ((x >>> 8) &&& 0xFF).toUInt8
  pl011Puth ((x >>> 16) &&& 0xFF).toUInt8
  pl011Puth ((x >>> 24) &&& 0xFF).toUInt8

/-- The loop of `data_puth` with `n` rounds to go from index `i` on. -/
def dataPuthFrom (x : Bytes) (i : Nat) : Nat → Prog UInt8 Unit
  | 0 => return ()
  | n + 1 => do
    pl011Puth (x.getD i 0)
    dataPuthFrom x (i + 1) n

def dataPuth (x : Bytes) (n : Nat) : Prog UInt8 Unit := dataPuthFrom x 0 n

/-- The loop of `data_geth`; the result is the buffer. -/
def dataGethFrom (x : Bytes) (i : Nat) : Nat → Prog UInt8 Bytes
  | 0 => return x
  | n + 1 => do
    let b ← pl011Geth
    dataGethFrom (x.set i b) (i + 1) n

def dataGeth (x : Bytes) (n : Nat) : Prog UInt8 Bytes := dataGethFrom x 0 n

/-- `RETRY`. -/
def retry : Nat := 3

def diskWrRequest (a : UInt32) (x : Bytes) (n : Nat) : Prog UInt8 Unit := do
  pl011Puth 0x01
  pl011Putc space
  addrPuth a
  pl011Putc space
  dataPuth x n
  pl011Putc newline

/-- The loop of `disk_wr` with `i` attempts to go. -/
def diskWrLoop (a : UInt32) (x : Bytes) (n : Nat) : Nat → Prog UInt8 Unit
  | 0 => return ()
  | i + 1 => do
    diskWrRequest a x n
    if (← pl011Geth) = 0x00 then
      let _ ← pl011Getc
      return ()
    else
      let _ ← pl011Getc
      diskWrLoop a x n i

def diskWr (a : UInt32) (x : Bytes) (n : Nat) : Prog UInt8 Unit := diskWrLoop a x n retry

def diskRdRequest (a : UInt32) : Prog UInt8 Unit := do
  pl011Puth 0x02
  pl011Putc space
  addrPuth a
  pl011Putc newline

/-- The loop of `disk_rd`; the result is the caller's buffer. -/
def diskRdLoop (a : UInt32) (x : Bytes) (n : Nat) : Nat → Prog UInt8 Bytes
  | 0 => return x
  | i + 1 => do
    diskRdRequest a
    if (← pl011Geth) = 0x00 then
      let _ ← pl011Getc
      let x ← dataGeth x n
      let _ ← pl011Getc
      return x
    else
      let _ ← pl011Getc
      diskRdLoop a x n i

def diskRd (a : UInt32) (x : Bytes) (n : Nat) : Prog UInt8 Bytes := diskRdLoop a x n retry

section Framing

/-- The two digits `PL011_puth` writes. -/
def hexPair (x : UInt8) : Bytes := [itox (x.toNat / 16 : Nat), itox (x.toNat % 16 : Nat)]

def hexAddr (a : UInt32) : Bytes :=
  (List.range 4).flatMap (fun i => hexPair (UInt8.ofNat (a.toNat / 256 ^ i % 256)))

def wrLine (a : UInt32) (x : Bytes) : Bytes :=
  hexPair 1 ++ space :: (hexAddr a ++ space :: x.flatMap hexPair)

def rdLine (a : UInt32) : Bytes := hexPair 2 ++ space :: hexAddr a

theorem writes_putc (x : UInt8) : Writes (pl011Putc x) [x] := Writes.putc x

theorem writes_puth (x : UInt8) : Writes (pl011Puth x) (hexPair x) := by
  have hhi : ((x >>> 4) &&& 0xF).toNat = x.toNat / 16 := by
    have := x.toNat_lt
    simp [Nat.shiftRight_eq_div_pow, Nat.and_two_pow_sub_one_eq_mod _ 4]
    omega
  have hlo : ((x >>> 0) &&& 0xF).toNat = x.toNat % 16 := by
    simpa using Nat.and_two_pow_sub_one_eq_mod x.toNat 4
  rw [hexPair, ← hhi, ← hlo]
  exact (writes_putc _).bind (writes_putc _)

theorem addr_byte (a : UInt32) (i : Nat) (hi : i < 4) :
    ((a >>> UInt32.ofNat (8 * i)) &&& 0xFF).toUInt8 = UInt8.ofNat (a.toNat / 256 ^ i % 256) := by
  apply UInt8.toNat_inj.mp
  interval_cases i <;>
    simp [Nat.shiftRight_eq_div_pow, Nat.and_two_pow_sub_one_eq_mod _ 8]

theorem writes_addrPuth (a : UInt32) : Writes (addrPuth a) (hexAddr a) := by
  have hb (i : Nat) (hi : i < 4) :
      Writes (pl011Puth ((a >>> UInt32.ofNat (8 * i)) &&& 0xFF).toUInt8)
        (hexPair (UInt8.ofNat (a.toNat / 256 ^ i % 256))) :=
    addr_byte a i hi ▸ writes_puth _
  have h : Writes (addrPuth a) _ := (hb 0 (by decide)).bind
    ((hb 1 (by decide)).bind ((hb 2 (by decide)).bind (hb 3 (by decide))))
  simpa [hexAddr, List.range_succ] using h

theorem writes_dataPuthFrom (x : Bytes) (i n : Nat) (h : i + n = x.length) :
    Writes (dataPuthFrom x i n) ((x.drop i).flatMap hexPair) := by
  induction n generalizing i with
  | zero =>
    rw [List.drop_eq_nil_of_le (by omega)]
    exact Writes.ret
  | succ n ih =>
    have hi : i < x.length := by omega
    have hg : x.getD i 0 = x[i] := by simp [hi]
    rw [List.drop_eq_getElem_cons hi, List.flatMap_cons, ← hg]
    exact (writes_puth _).bind (ih (i + 1) (by omega))

theorem writes_wrRequest (a : UInt32) (x : Bytes) :
    Writes (diskWrRequest a x x.length) (wrLine a x ++ [newline]) := by
  have h : Writes (diskWrRequest a x x.length) _ :=
    (writes_puth 1).bind ((writes_putc space).bind ((writes_addrPuth a).bind
      ((writes_putc space).bind ((writes_dataPuthFrom x 0 x.length (by omega)).bind
        (writes_putc newline)))))
  simpa [wrLine] using h

theorem writes_rdRequest (a : UInt32) : Writes (diskRdRequest a) (rdLine a ++ [newline]) := by
  have h : Writes (diskRdRequest a) _ :=
    (writes_puth 2).bind ((writes_putc space).bind ((writes_addrPuth a).bind (writes_putc newline)))
  simpa [rdLine] using h

end Framing
end MalapropOS.Disk
