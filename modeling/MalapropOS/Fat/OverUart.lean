import MalapropOS.Disk.Store
import MalapropOS.Fat.InBounds
import Mathlib.Algebra.BigOperators.Group.List.Lemmas

/-! The file system on the disk image of `disk.py`, with the UART driver and the server in between.
In every interleaving of the two the system calls return what they return on the volume, and they
leave its sectors in the image. -/
namespace MalapropOS.Fat
open Requests LineChannel
open PartialMachine (Along)
open MalapropOS.Disk (seekRead storeCall imageCall diskRdLoop_accepted diskWrLoop_accepted)

/-- The bytes from `x[ i ]` on. -/
def bytesAt (x : Buffer) (i n : Nat) : Disk.Bytes := (List.range n).map fun k => x (i + k)

/-- The calls of the driver. -/
def overUart : (q : SectorCall) → LineChannel.Prog UInt8 q.Result
  | .rd a x i n => (Disk.diskRd (UInt32.ofNat a) (bytesAt x i n) n).bind fun b =>
      .ret fun k => if i ≤ k ∧ k < i + n then b.getD (k - i) 0 else x k
  | .wr a x i n => Disk.diskWr (UInt32.ofNat a) (bytesAt x i n) n

/-- The image has the sectors of the volume, and is the first one otherwise. -/
def ImageOf (args : Disk.Args) (first : Disk.Bytes) (d : Disk) (image : Disk.Bytes) : Prop :=
  Disk.Holds args first (fun a => bytesAt (d a) 0 args.blockLen) image

section Requests
variable {args : Disk.Args} {first image : Disk.Bytes} {d : Disk}

theorem bytesAt_length (x : Buffer) (i n : Nat) : (bytesAt x i n).length = n := by simp [bytesAt]

theorem bytesAt_getD {x : Buffer} {i n k : Nat} (hk : k < n) :
    (bytesAt x i n).getD k 0 = x (i + k) := by
  rw [List.getD_eq_getElem _ _ (by rwa [bytesAt_length])]
  simp [bytesAt]

/-- What was read, in the caller's buffer. -/
theorem diskRd_bytesAt (a : Nat) (x : Buffer) (i n : Nat) :
    (fun k => if i ≤ k ∧ k < i + n then (bytesAt (d a) 0 n).getD (k - i) 0 else x k) =
      diskRd d a x i n := by
  funext k
  by_cases hk : i ≤ k ∧ k < i + n
  · simp only [diskRd, if_pos hk]
    rw [bytesAt_getD (by omega), Nat.zero_add]
  · simp only [diskRd, if_neg hk]

/-- What was written, in its block. -/
theorem bytesAt_diskWr (a : Nat) (x : Buffer) (i n : Nat) :
    Function.update (fun s => bytesAt (d s) 0 n) a (bytesAt x i n) =
      fun s => bytesAt (diskWr d a x i n s) 0 n := by
  funext s
  apply List.ext_getElem
  · by_cases hs : s = a
    · simp [hs, bytesAt_length]
    · simp [hs, bytesAt_length]
  · intro k hk hk'
    rw [bytesAt_length] at hk'
    by_cases hs : s = a
    · simp [hs, bytesAt, diskWr, hk']
    · simp [hs, bytesAt, diskWr]

variable (hn : 0 < args.blockLen) (hsize : args.blockNum ≤ 2 ^ 31)
  (hfirst : args.blockNum * args.blockLen ≤ first.length)
include hn hsize hfirst

theorem overUart_evals (q : SectorCall) {fs : Fat16} (hq : OnBlocks args fs q)
    (himage : ImageOf args first d image) :
    ∃ image', ImageOf args first (onDisk q d).2 image' ∧
      Evals Disk.newline (Disk.serve args) (overUart q) ([], [], image) (onDisk q d).1
        ([], [], image') := by
  have haddr {a : Nat} (ha : a < args.blockNum) : (UInt32.ofNat a).toNat = a :=
    UInt32.toNat_ofNat_of_lt' (ha.trans_le (hsize.trans (by decide)))
  cases q with
  | rd a x i n =>
    obtain ⟨ha, rfl⟩ := hq
    have hlt : (UInt32.ofNat a).toNat < args.blockNum := (haddr ha).symm ▸ ha
    have hblock : seekRead image ((UInt32.ofNat a).toNat * args.blockLen) args.blockLen =
        bytesAt (d a) 0 args.blockLen := by
      rw [haddr ha]
      exact himage.blocks a ha
    have hlen : (seekRead image ((UInt32.ofNat a).toNat * args.blockLen) args.blockLen).length =
        args.blockLen := by
      rw [hblock, bytesAt_length]
    have hread := diskRdLoop_accepted (hlt.trans_le hsize) (bytesAt_length x i args.blockLen) hlt hlen 2
    rw [hblock] at hread
    refine ⟨image, himage, hread.bind ?_⟩
    rw [diskRd_bytesAt]
    exact Evals.ret _ _
  | wr a x i n =>
    obtain ⟨-, ha, rfl⟩ := hq
    have hlt : (UInt32.ofNat a).toNat < args.blockNum := (haddr ha).symm ▸ ha
    have hlen := bytesAt_length x i args.blockLen
    have hne : bytesAt x i args.blockLen ≠ [] := List.ne_nil_of_length_pos (hlen.symm ▸ hn)
    have hcall := (himage.call hfirst
      ⟨.wr, UInt32.ofNat a, bytesAt x i args.blockLen, hlt.trans_le hsize, hlen⟩).1
    simp only [storeCall, imageCall, haddr ha, if_pos ha, bytesAt_diskWr] at hcall
    have hwrite := @diskWrLoop_accepted args image _ (hlt.trans_le hsize) _ hne _ hlen hlt 2
    rw [haddr ha] at hwrite
    exact ⟨_, hcall, hwrite⟩

end Requests

section Calls
variable {fs : Fat16} {args : Disk.Args} {s t : State} {calls : List Call} {rs : List Int}
  {image : Disk.Bytes}

/-- The calls as the client of a server that has the image. -/
def uartStart (fs : Fat16) (s : State) (calls : List Call) (image : Disk.Bytes) :
    Config UInt8 (Option (List Int × Tables)) Disk.Bytes :=
  ⟨(Code.callAll fs s.tables calls).run.onChannel overUart, [], [], image⟩

def uartEnd (rs : List Int) (t : State) (image : Disk.Bytes) :
    Config UInt8 (Option (List Int × Tables)) Disk.Bytes :=
  ⟨.ret (some (rs, t.tables)), [], [], image⟩

/-- Calls that address sectors of the disk return over the UART what they return on the volume. -/
theorem calls_over_uart (hn : 0 < args.blockLen) (hsize : args.blockNum ≤ 2 ^ 31)
    (hfirst : args.blockNum * args.blockLen ≤ image.length)
    (himage : ImageOf args image s.disk image)
    (hok : InBounds args fs (Code.callAll fs s.tables calls) s.disk)
    (hcalls : callAll fs s calls = some (rs, t)) :
    ∃ image', ImageOf args image t.disk image' ∧
      ∃ N, ∀ m c, Steps (LineChannel.Step Disk.newline (Disk.serve args)) m
          (uartStart fs s calls image) c → m ≤ N ∧
        (c = uartEnd rs t image' ∨ ∃ d, LineChannel.Step Disk.newline (Disk.serve args) c d) ∧
        ((∃ b, c.prog = .ret b) → c = uartEnd rs t image') := by
  have hrun := exec_of_run ((Code.run_callAll s.tables s.disk calls).trans
    (congrArg (Option.map Code.splitState) hcalls))
  obtain ⟨image', himage', heval⟩ :=
    evals_onChannel (fun q _ _ hq hrel => overUart_evals hn hsize hfirst q hq hrel) hok himage
  rw [hrun] at himage' heval
  exact ⟨image', himage', heval.all_runs⟩

/-- The file system over the UART is the file system on the volume, in runs of guarded calls on a
sound volume. Every run of the kernel and the server is finite and can go on to the end; there the
calls have returned what they return on the volume, and the image has the sectors of the volume. -/
theorem guarded_calls_over_uart (hl : DirLayout fs) (ha : Attached args fs)
    (hsize : args.blockNum ≤ 2 ^ 31) (hfirst : args.blockNum * args.blockLen ≤ image.length)
    {d : Disk} (hd : Sound fs d fun _ => False) (himage : ImageOf args image d image)
    (hg : Along (step fs) (fun s c => Guard fs s c ∧ Inside fs s c) calls (fileInitialise d)) :
    ∃ rs t image', callAll fs (fileInitialise d) calls = some (rs, t) ∧
      PartialMachine.run (step fs) calls (fileInitialise d) = some t ∧
      ImageOf args image t.disk image' ∧
      ∃ N, ∀ m c, Steps (LineChannel.Step Disk.newline (Disk.serve args)) m
          (uartStart fs (fileInitialise d) calls image) c → m ≤ N ∧
        (c = uartEnd rs t image' ∨ ∃ e, LineChannel.Step Disk.newline (Disk.serve args) c e) ∧
        ((∃ b, c.prog = .ret b) → c = uartEnd rs t image') := by
  obtain ⟨rs, t, hcalls, hrun, hok⟩ := guarded_calls hl ha (integral_initial hd) hg
  obtain ⟨image', himage', hruns⟩ := calls_over_uart (ha.sector ▸ fs.bytesPerSector_pos) hsize hfirst
    himage hok hcalls
  exact ⟨rs, t, image', hcalls, hrun, himage', hruns⟩

end Calls

section Examples

/-- The image that has the sectors of a volume one after the other. -/
def diskImage (args : Disk.Args) (d : Disk) : Disk.Bytes :=
  (List.range args.blockNum).flatMap fun a => bytesAt (d a) 0 args.blockLen

theorem diskImage_length (args : Disk.Args) (d : Disk) :
    (diskImage args d).length = args.blockNum * args.blockLen := by
  simp [diskImage, List.length_flatMap, bytesAt_length]

theorem imageOf_diskImage (args : Disk.Args) (d : Disk) :
    ImageOf args (diskImage args d) d (diskImage args d) where
  length := rfl
  blocks a ha := by
    have hlen : ((List.range args.blockNum).map fun a => bytesAt (d a) 0 args.blockLen).map
        List.length = List.replicate args.blockNum args.blockLen := by
      simp [List.map_map, Function.comp_def, bytesAt_length]
    have hblock := List.drop_take_succ_flatten_eq_getElem
      ((List.range args.blockNum).map fun a => bytesAt (d a) 0 args.blockLen) a (by simpa using ha)
    rw [hlen, List.take_replicate, List.take_replicate, List.sum_replicate_nat, List.sum_replicate_nat,
      Nat.min_eq_left ha.le, Nat.min_eq_left ha, List.drop_take,
      ← Nat.sub_mul, show a.succ - a = 1 by omega, Nat.one_mul, List.getElem_map,
      List.getElem_range] at hblock
    exact hblock
  beyond := rfl

/-- Making a file and writing 40 bytes to it, over the UART. -/
theorem makeAndWrite_over_uart : ∃ t image',
    callAll smallVolume (fileInitialise emptyDisk) (makeAndWrite fun _ => 0x58) = some ([3, 40], t) ∧
    ImageOf ⟨18, 32⟩ (diskImage ⟨18, 32⟩ emptyDisk) t.disk image' ∧
    ∃ N, ∀ m c, Steps (LineChannel.Step Disk.newline (Disk.serve ⟨18, 32⟩)) m
        (uartStart smallVolume (fileInitialise emptyDisk) (makeAndWrite fun _ => 0x58)
          (diskImage ⟨18, 32⟩ emptyDisk)) c → m ≤ N ∧
      (c = uartEnd [3, 40] t image' ∨
        ∃ e, LineChannel.Step Disk.newline (Disk.serve ⟨18, 32⟩) c e) ∧
      ((∃ b, c.prog = .ret b) → c = uartEnd [3, 40] t image') := by
  have hres : (callAll smallVolume (fileInitialise emptyDisk) (makeAndWrite fun _ => 0x58)).map
      Prod.fst = some [3, 40] := by decide +kernel
  obtain ⟨rs, t, image', hcalls, -, himage, hruns⟩ := guarded_calls_over_uart smallVolume_layout
    smallVolume_attached (by decide) (diskImage_length _ _).ge emptyDisk_sound
    (imageOf_diskImage _ _) (makeAndWrite_inside fun _ => 0x58)
  obtain rfl : rs = [3, 40] := Option.some.inj (by simpa [hcalls] using hres)
  exact ⟨t, image', hcalls, himage, hruns⟩

end Examples
end MalapropOS.Fat
