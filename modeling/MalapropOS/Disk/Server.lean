import MalapropOS.Disk.Driver

/-! The disk server of `disk.py`. Its state is the disk image; `none` stands for an
exception, which ends the server. -/
namespace MalapropOS.Disk
open LineChannel

def ackOkay : Bytes := [0x30, 0x30]
def ackFail : Bytes := [0x30, 0x31]

def hexDigit (x : UInt8) : Option Nat :=
  if 48 ≤ x.toNat ∧ x.toNat ≤ 57 then some (x.toNat - 48)
  else if 97 ≤ x.toNat ∧ x.toNat ≤ 102 then some (10 + (x.toNat - 97))
  else if 65 ≤ x.toNat ∧ x.toNat ≤ 70 then some (10 + (x.toNat - 65))
  else none

/-- `binascii.unhexlify`. -/
def unhexlify : Bytes → Option Bytes
  | [] => some []
  | [_] => none
  | x :: y :: rest => do
    let hi ← hexDigit x
    let lo ← hexDigit y
    return UInt8.ofNat (16 * hi + lo) :: (← unhexlify rest)

def lowerDigit (n : Nat) : UInt8 := if n < 10 then UInt8.ofNat (48 + n) else UInt8.ofNat (87 + n)

/-- `binascii.hexlify`, which writes lower case digits. -/
def hexlify (data : Bytes) : Bytes :=
  data.flatMap (fun b => [lowerDigit (b.toNat / 16), lowerDigit (b.toNat % 16)])

/-- `struct.unpack( '<l', s )[ 0 ]`. -/
def unpack : Bytes → Option Int
  | [b₀, b₁, b₂, b₃] =>
    let n : Nat := b₀.toNat + 256 * b₁.toNat + 256 ^ 2 * b₂.toNat + 256 ^ 3 * b₃.toNat
    some (if n < 2 ^ 31 then (n : Int) else (n : Int) - 2 ^ 32)
  | _ => none

/-- `struct.pack( '<l', n )`. -/
def pack (n : Nat) : Option Bytes :=
  if n < 2 ^ 31 then some ((List.range 4).map (fun i => UInt8.ofNat (n / 256 ^ i % 256))) else none

def isSpace (x : UInt8) : Bool := x = 0x20 ∨ (0x09 ≤ x ∧ x ≤ 0x0d)

/-- `str.strip`. -/
def strip (line : Bytes) : Bytes := ((line.dropWhile isSpace).reverse.dropWhile isSpace).reverse

structure Args where
  blockNum : Nat
  blockLen : Nat

/-- `fd.seek` to `off`, then `fd.write`: beyond the end the file is filled with zeros. -/
def seekWrite (image : Bytes) (off : Nat) (data : Bytes) : Bytes :=
  (image ++ List.replicate (off - image.length) 0).take off ++ data ++ image.drop (off + data.length)

def seekRead (image : Bytes) (off n : Nat) : Bytes := (image.drop off).take n

section Requests
variable (args : Args) (image : Bytes) (req : List Bytes)

def conf : Option (Bytes × List Bytes) := do
  let num ← pack args.blockNum
  let len ← pack args.blockLen
  return (image, [ackOkay, num ++ len])

def wr : Option (Bytes × List Bytes) := do
  let address ← unpack (← unhexlify (← req[1]?))
  let data ← unhexlify (← req[2]?)
  if address ≥ args.blockNum then return (image, [ackFail])
  else if address * args.blockLen < 0 then none
  else return (seekWrite image (address * args.blockLen).toNat data, [ackOkay])

def rd : Option (Bytes × List Bytes) := do
  let address ← unpack (← unhexlify (← req[1]?))
  if address ≥ args.blockNum then return (image, [ackFail])
  else if address * args.blockLen < 0 then none
  else return (image, [ackOkay, seekRead image (address * args.blockLen).toNat args.blockLen])

/-- The chain of tests on `req[ 0 ]`. -/
def dispatch : Option (Bytes × List Bytes) :=
  if req[0]? = some [0x30, 0x30] then conf args image
  else if req[0]? = some [0x30, 0x31] then wr args image req
  else if req[0]? = some [0x30, 0x32] then rd args image req
  else some (image, [ackFail])

end Requests

/-- The acknowledgement as it is sent, less its end of line. -/
def ackLine : List Bytes → Bytes
  | [] => []
  | [ack] => ack
  | ack :: data => ack ++ space :: [space].intercalate (data.map hexlify)

/-- One round of the server loop, given the line without its end of line. -/
def serve (args : Args) (image line : Bytes) : Option (Bytes × Bytes) := do
  let req := (strip (line ++ [newline])).splitOn space
  let (image, ack) ← dispatch args image req
  return (image, ackLine ack)

section Parsing

theorem hexPair_digits (x : UInt8) : ∀ y ∈ hexPair x, ∃ n < 16, y = itox (n : Nat) := by
  intro y hy
  have := x.toNat_lt
  simp only [hexPair, List.mem_cons, List.not_mem_nil, or_false] at hy
  obtain rfl | rfl := hy
  · exact ⟨_, by omega, rfl⟩
  · exact ⟨_, Nat.mod_lt _ (by omega), rfl⟩

theorem hexDigit_itox {n : Nat} (h : n < 16) : hexDigit (itox n) = some n := by
  interval_cases n <;> rfl

theorem isSpace_itox {n : Nat} (h : n < 16) : isSpace (itox n) = false := by
  interval_cases n <;> rfl

/-- No hexadecimal digit is a separator or an end of line. -/
theorem hexPair_not_space (x : UInt8) : ∀ y ∈ hexPair x, isSpace y = false := by
  intro y hy
  obtain ⟨n, hn, rfl⟩ := hexPair_digits x y hy
  exact isSpace_itox hn

theorem hexPairs_not_space (xs : Bytes) : ∀ y ∈ xs.flatMap hexPair, isSpace y = false := by
  intro y hy
  obtain ⟨x, -, hx⟩ := List.mem_flatMap.mp hy
  exact hexPair_not_space x y hx

theorem unhexlify_hexPairs (xs : Bytes) : unhexlify (xs.flatMap hexPair) = some xs := by
  induction xs with
  | nil => rfl
  | cons x xs ih =>
    have hx := x.toNat_lt
    rw [List.flatMap_cons]
    simp only [hexPair, List.cons_append, List.nil_append, unhexlify,
      hexDigit_itox (show x.toNat / 16 < 16 by omega),
      hexDigit_itox (Nat.mod_lt x.toNat (show 0 < 16 by omega)), ih, Option.bind_eq_bind,
      Option.bind_some, Nat.div_add_mod, UInt8.ofNat_toNat, Option.pure_def]

/-- The four bytes `addr_puth` writes. -/
def addrBytes (a : UInt32) : Bytes :=
  (List.range 4).map (fun i => UInt8.ofNat (a.toNat / 256 ^ i % 256))

theorem hexAddr_eq (a : UInt32) : hexAddr a = (addrBytes a).flatMap hexPair := by
  rw [hexAddr, addrBytes, List.flatMap_map]

theorem unpack_addrBytes (a : UInt32) (h : a.toNat < 2 ^ 31) :
    unpack (addrBytes a) = some (a.toNat : Int) := by
  have hn : a.toNat / 256 ^ 0 % 256 + 256 * (a.toNat / 256 ^ 1 % 256) +
      256 ^ 2 * (a.toNat / 256 ^ 2 % 256) + 256 ^ 3 * (a.toNat / 256 ^ 3 % 256) = a.toNat := by
    omega
  have hm (k : Nat) : k % 256 % 2 ^ 8 = k % 256 := Nat.mod_mod _ _
  simp only [addrBytes, List.range, List.range.loop, List.map, unpack, UInt8.toNat_ofNat', hm, hn,
    h, if_true]

/-- A line whose first and last words are not empty is not changed by `strip`. -/
theorem strip_line {w v : Bytes} (mid : Bytes) (hw : w ≠ []) (hv : v ≠ [])
    (hws : ∀ y ∈ w, isSpace y = false) (hvs : ∀ y ∈ v, isSpace y = false) :
    strip (w ++ (mid ++ v) ++ [newline]) = w ++ (mid ++ v) := by
  have hnl : isSpace newline = true := rfl
  obtain ⟨x, w, rfl⟩ := List.exists_cons_of_ne_nil hw
  obtain ⟨v, y, rfl⟩ := List.eq_nil_or_concat v |>.resolve_left hv
  simp [strip, hws x (by simp), hvs y (by simp), hnl]

theorem space_not_mem {w : Bytes} (hw : ∀ y ∈ w, isSpace y = false) : space ∉ w :=
  fun h => absurd (hw space h) (by decide)

theorem newline_not_mem {w : Bytes} (hw : ∀ y ∈ w, isSpace y = false) : newline ∉ w :=
  fun h => absurd (hw newline h) (by decide)

theorem hexAddr_not_space (a : UInt32) : ∀ y ∈ hexAddr a, isSpace y = false :=
  hexAddr_eq a ▸ hexPairs_not_space _

theorem request_words (ws : List Bytes) (hs : ws ≠ []) (hws : ∀ w ∈ ws, ∀ y ∈ w, isSpace y = false) :
    ([space].intercalate ws).splitOn space = ws :=
  List.splitOn_intercalate space (fun w hw => space_not_mem (hws w hw)) hs

theorem wrLine_request (a : UInt32) {x : Bytes} (hx : x ≠ []) :
    (strip (wrLine a x ++ [newline])).splitOn space =
      [hexPair 1, hexAddr a, x.flatMap hexPair] := by
  have hl : x.flatMap hexPair ≠ [] := by
    obtain ⟨b, x, rfl⟩ := List.exists_cons_of_ne_nil hx
    simp [hexPair]
  have hs := strip_line (space :: hexAddr a ++ [space]) (show hexPair 1 ≠ [] by simp [hexPair]) hl
    (hexPair_not_space 1) (hexPairs_not_space x)
  have he : wrLine a x = hexPair 1 ++ (space :: hexAddr a ++ [space] ++ x.flatMap hexPair) := by
    simp [wrLine]
  have hi : hexPair 1 ++ (space :: hexAddr a ++ [space] ++ x.flatMap hexPair) =
      [space].intercalate [hexPair 1, hexAddr a, x.flatMap hexPair] := by
    simp [List.intercalate]
  rw [he, hs, hi, request_words _ (by simp)]
  simp only [List.mem_cons, List.not_mem_nil, or_false, forall_eq_or_imp, forall_eq]
  exact ⟨hexPair_not_space 1, hexAddr_not_space a, hexPairs_not_space x⟩

theorem rdLine_request (a : UInt32) :
    (strip (rdLine a ++ [newline])).splitOn space = [hexPair 2, hexAddr a] := by
  have hs := strip_line [space] (show hexPair 2 ≠ [] by simp [hexPair])
    (show hexAddr a ≠ [] by simp [hexAddr, hexPair, List.range_succ])
    (hexPair_not_space 2) (hexAddr_not_space a)
  have he : rdLine a = hexPair 2 ++ ([space] ++ hexAddr a) := by simp [rdLine]
  have hi : hexPair 2 ++ ([space] ++ hexAddr a) = [space].intercalate [hexPair 2, hexAddr a] := by
    simp [List.intercalate]
  rw [he, hs, hi, request_words _ (by simp)]
  simp only [List.mem_cons, List.not_mem_nil, or_false, forall_eq_or_imp, forall_eq]
  exact ⟨hexPair_not_space 2, hexAddr_not_space a⟩

theorem wrLine_one_line (a : UInt32) (x : Bytes) : newline ∉ wrLine a x := by
  have h₁ := newline_not_mem (hexPair_not_space 1)
  have h₂ := newline_not_mem (hexAddr_not_space a)
  have h₃ := newline_not_mem (hexPairs_not_space x)
  simp only [wrLine, List.mem_append, List.mem_cons, not_or]
  exact ⟨h₁, by decide, h₂, by decide, h₃⟩

theorem rdLine_one_line (a : UInt32) : newline ∉ rdLine a := by
  have h₁ := newline_not_mem (hexPair_not_space 2)
  have h₂ := newline_not_mem (hexAddr_not_space a)
  simp only [rdLine, List.mem_append, List.mem_cons, not_or]
  exact ⟨h₁, by decide, h₂⟩

end Parsing

section Serving
variable (args : Args) (image : Bytes) {a : UInt32}

/-- `wr` and `rd` get the address that `addr_puth` wrote. -/
theorem address_read (ha : a.toNat < 2 ^ 31) :
    (unhexlify (hexAddr a)).bind unpack = some (a.toNat : Int) := by
  rw [hexAddr_eq, unhexlify_hexPairs, Option.bind_some, unpack_addrBytes a ha]

theorem seek_nonneg (a n : Nat) :
    ¬ (a : Int) * n < 0 ∧ ((a : Int) * n).toNat = a * n := by
  rw [← Int.natCast_mul, Int.toNat_natCast]
  exact ⟨by omega, rfl⟩

/-- The server's answer to a request of `disk_wr`. -/
theorem serve_wr (ha : a.toNat < 2 ^ 31) {x : Bytes} (hx : x ≠ []) :
    serve args image (wrLine a x) = some (if a.toNat < args.blockNum then
      (seekWrite image (a.toNat * args.blockLen) x, ackOkay) else (image, ackFail)) := by
  obtain ⟨hnn, hto⟩ := seek_nonneg a.toNat args.blockLen
  have hd : dispatch args image [hexPair 1, hexAddr a, x.flatMap hexPair] =
      wr args image [hexPair 1, hexAddr a, x.flatMap hexPair] := rfl
  have hw : wr args image [hexPair 1, hexAddr a, x.flatMap hexPair] =
      some (if a.toNat < args.blockNum then
        (seekWrite image (a.toNat * args.blockLen) x, [ackOkay]) else (image, [ackFail])) := by
    have had := address_read ha
    obtain ⟨bs, hbs, had⟩ := Option.bind_eq_some_iff.mp had
    by_cases hlt : a.toNat < args.blockNum
    · simp [wr, hbs, had, unhexlify_hexPairs, hnn, hto, hlt]
    · simp [wr, hbs, had, unhexlify_hexPairs, hlt]
  rw [serve, wrLine_request a hx, hd, hw]
  by_cases hlt : a.toNat < args.blockNum <;> simp [hlt, ackLine]

/-- The server's answer to a request of `disk_rd`. -/
theorem serve_rd (ha : a.toNat < 2 ^ 31) :
    serve args image (rdLine a) = some (image, if a.toNat < args.blockNum then
      ackOkay ++ space :: hexlify (seekRead image (a.toNat * args.blockLen) args.blockLen)
      else ackFail) := by
  obtain ⟨hnn, hto⟩ := seek_nonneg a.toNat args.blockLen
  have hd : dispatch args image [hexPair 2, hexAddr a] = rd args image [hexPair 2, hexAddr a] := rfl
  have hr : rd args image [hexPair 2, hexAddr a] =
      some (image, if a.toNat < args.blockNum then
        [ackOkay, seekRead image (a.toNat * args.blockLen) args.blockLen] else [ackFail]) := by
    have had := address_read ha
    obtain ⟨bs, hbs, had⟩ := Option.bind_eq_some_iff.mp had
    by_cases hlt : a.toNat < args.blockNum
    · simp [rd, hbs, had, hnn, hto, hlt]
    · simp [rd, hbs, had, hlt]
  rw [serve, rdLine_request a, hd, hr]
  by_cases hlt : a.toNat < args.blockNum <;> simp [hlt, ackLine, List.intercalate]

end Serving

section Replies

/-- `PL011_geth` reads what `hexlify` wrote, although it is in lower case. -/
theorem geth_digits (b : UInt8) :
    UInt8.ofInt (xtoi (lowerDigit (b.toNat / 16)) * 16) |||
      UInt8.ofInt (xtoi (lowerDigit (b.toNat % 16))) = b := by
  have hd (n : Nat) (h : n < 16) : xtoi (lowerDigit n) = n := by
    interval_cases n <;> rfl
  have hb := b.toNat_lt
  rw [hd _ (by omega), hd _ (Nat.mod_lt _ (by omega))]
  apply UInt8.toNat_inj.mp
  have hhi : (UInt8.ofInt (((b.toNat / 16 : Nat) : Int) * 16)).toNat = b.toNat / 16 * 16 := by
    simp [UInt8.ofInt]
    omega
  have hlo : (UInt8.ofInt ((b.toNat % 16 : Nat) : Int)).toNat = b.toNat % 16 := by
    simp [UInt8.ofInt]
    omega
  rw [UInt8.toNat_or, hhi, hlo, show b.toNat / 16 * 16 = 2 ^ 4 * (b.toNat / 16) by omega,
    ← Nat.two_pow_add_eq_or_of_lt (by omega)]
  omega

theorem reads_geth (b : UInt8) : Reads pl011Geth (hexlify [b]) b := by
  have h : Reads pl011Geth [lowerDigit (b.toNat / 16), lowerDigit (b.toNat % 16)] _ :=
    (Reads.getc _).bind ((Reads.getc _).bind (Reads.ret _))
  rw [geth_digits] at h
  simpa [hexlify] using h

theorem reads_dataGethFrom (bs x : Bytes) (i : Nat) (h : i + bs.length ≤ x.length) :
    Reads (dataGethFrom x i bs.length) (hexlify bs)
      (x.take i ++ bs ++ x.drop (i + bs.length)) := by
  induction bs generalizing x i with
  | nil =>
    rw [List.append_nil, List.length_nil, Nat.add_zero, List.take_append_drop]
    exact Reads.ret x
  | cons b bs ih =>
    have hi : i < x.length := by simp at h; omega
    have hx : Reads (dataGethFrom x i (bs.length + 1)) _ _ :=
      (reads_geth b).bind (ih (x.set i b) (i + 1) (by simp at h ⊢; omega))
    have he : (x.set i b).take (i + 1) ++ bs ++ (x.set i b).drop (i + 1 + bs.length) =
        x.take i ++ b :: bs ++ x.drop (i + (b :: bs).length) := by
      rw [List.take_add_one, List.take_set_of_le (by omega), List.drop_set_of_lt (by omega)]
      simp [hi, Nat.add_comm, Nat.add_left_comm]
    rw [he] at hx
    rw [show hexlify (b :: bs) = hexlify [b] ++ hexlify bs by simp [hexlify]]
    exact hx

theorem reads_dataGeth {bs x : Bytes} (h : bs.length = x.length) :
    Reads (dataGeth x x.length) (hexlify bs) bs := by
  have hx := reads_dataGethFrom bs x 0 (by omega)
  simpa [h, dataGeth] using hx

end Replies
end MalapropOS.Disk
