import Saynaa.Proof.Cat
import Saynaa.Proof.Started
import Saynaa.Sys.ExecPath

/-!
# Programs on the disk

* `kmalloc_inside`: the buffer for the file lies in the heap.
* `runNode_started`: `proc_run_path` passes on the whole file.
* `program_from_disk`: what is in memory when a program from the disk starts.
-/

namespace Saynaa

open Lib

variable {σ : Type} {d : Drivers σ} {node : VfsNode σ} {s t u u₁ : Exec} {w w' : σ} {mem : ℕ → UInt8}
  {argv : List (List UInt8)} {fuel process size buf : ℕ} {content : List UInt8} {x : Binary} {ds : Set ℕ}
  {path : Name}

theorem kmalloc_inside (h : HeapLive s) (hsize : size ≤ kernelHeapSize) (he : s.kmalloc fuel size = some (buf, u)) :
    buf + size ≤ heapEnd := by
  unfold Exec.kmalloc Exec.alignedAlloc at he
  obtain ⟨a, hal, he⟩ := Option.bind_eq_some_iff.1 he
  obtain ⟨⟨q, heap⟩, rfl, he⟩ := Option.bind_eq_some_iff.1 he
  obtain ⟨rfl, -⟩ := Prod.mk.inj (Option.some.inj he)
  have hret := alignedAlloc_returns hal
  have halign : AlignOK minAlign := ⟨by decide, rfl, by decide⟩
  rcases alloc_ready h.2 halign hsize with hab | ⟨p, h', hr, hok, -, -, hpay⟩
  · cases hret.unique hab
  · obtain ⟨rfl, rfl⟩ := Prod.mk.inj (Option.some.inj (hret.unique hr))
    have hin := (hok.inside (Set.mem_insert _ _)).2
    omega

/-- The file in the buffer. -/
def fileBuffer (mem : ℕ → UInt8) (buf : ℕ) (content : List UInt8) : Binary :=
  ⟨Exec.withBuffer mem buf (copyIn (fun i => mem (buf + i)) 0 content), buf, content.length⟩

theorem fileBuffer_byte {i : ℕ} (hi : i < content.length) :
    (fileBuffer mem buf content).mem (buf + i) = content.getD i 0 := by
  show Exec.withBuffer mem buf (copyIn (fun i => mem (buf + i)) 0 content) (buf + i) = _
  unfold Exec.withBuffer
  rw [if_neg (by omega), Nat.add_sub_cancel_left, copyIn_in (Nat.zero_le i) (by omega), List.getD_eq_getElem _ _ hi]
  rfl

/-- **The whole file** is passed on. -/
theorem runNode_file (hflag : flagged node.flags vfsNodeFile) (hfile : node.IsFile content)
    (hlen : node.length = content.length)
    (h0 : content.length ≠ 0) (hk : s.kmalloc fuel content.length = some (buf, u)) (w : σ) (mem : ℕ → UInt8)
    (argv : List (List UInt8)) : s.runNode fuel node w mem argv =
      (u.procRunCode fuel (fileBuffer mem buf content) argv).map fun (p, v) => (p, v.kfree buf, w) := by
  obtain ⟨op, hop, hcopy⟩ := hfile.read
  have hlt := hfile.length_lt
  have hbuffer := hcopy 0 content.length (fun i => mem (buf + i)) w (Nat.zero_le _) (by omega)
  rw [List.drop_zero, List.take_length] at hbuffer
  have hread : node.vfsRead 0 content.length (fun i => mem (buf + i)) w =
      some ((content.length : ℤ), copyIn (fun i => mem (buf + i)) 0 content, w) := by
    unfold VfsNode.vfsRead
    rw [hop]
    exact hbuffer
  unfold Exec.runNode
  rw [if_neg (not_not.2 hflag), hlen, if_neg h0, hk, Option.bind_some]
  simp only
  rw [if_neg (kmalloc_cases hk).1, hread, Option.bind_some]
  simp only
  rw [if_neg (by omega)]
  rfl

theorem procRunPath_found (hlook : d.vfsLookup path w = some (some node, w')) :
    s.procRunPath d fuel w mem path argv = s.runNode fuel node w' mem argv := by
  unfold Exec.procRunPath
  rw [hlook]
  rfl

theorem runNode_started (hfile : node.IsFile content) (hlen : node.length = content.length)
    (hk : s.kmalloc fuel content.length = some (buf, u))
    (he : s.runNode fuel node w mem argv = some (some process, t, w')) :
    ∃ v, u.procRunCode fuel (fileBuffer mem buf content) argv = some (some process, v) ∧ t.machine = v.machine ∧
      t.ring = v.ring := by
  have hflag : flagged node.flags vfsNodeFile := by
    by_contra hno
    unfold Exec.runNode at he
    rw [if_pos hno] at he
    cases he
  have h0 : content.length ≠ 0 := by
    intro hzero
    unfold Exec.runNode at he
    rw [if_neg (not_not.2 hflag), if_pos (hlen.trans hzero)] at he
    cases he
  rw [runNode_file hflag hfile hlen h0 hk] at he
  obtain ⟨⟨p, v⟩, hrun, heq⟩ := Option.map_eq_some_iff.1 he
  cases heq
  exact ⟨v, hrun, rfl, rfl⟩

/-- **A program from the disk.** If `proc_run_path` starts the file at `path`, the new process's address space
holds the bytes that the `ext2` file system has for the segments, zeros behind them, the arguments, and no other
page; no other process is touched. -/
theorem program_from_disk {fs : Ext2Fs} {n : Ext2Node} {ino : ℕ} (h : Isolated s.machine ds) (hheap : HeapLive s)
    (hread : fs.Readable n.inode ino) (hlen : n.length = fs.fileSize ino) (hfind : d.Finds path (fs.vfsNode n))
    (hsize : fs.fileSize ino ≤ kernelHeapSize) (hk : s.kmalloc fuel (fs.fileSize ino) = some (buf, u))
    (hx : x = fileBuffer mem buf (fs.wholeFile ino)) (htemp : u.allocTempPage fuel = some u₁)
    (hin : ExecInside u₁ x argv) (hvalid : x.elfIsValid) (hseg : ∀ i < x.ePhnum, x.Loads i → SegmentOK (x.phdr i))
    (he : s.procRunPath d fuel w mem path argv = some (some process, t, w')) :
    ProgramStarted s t x (argv.take 64) ds process s.machine.pmm.mmapFindFree ∧
      ∀ i < x.ePhnum, x.Loads i → ∀ k < (x.phdr i).pMemsz,
        (t.machine.under s.machine.pmm.mmapFindFree).byteAt ((x.phdr i).pVaddr + k) =
          some (if k < (x.phdr i).pFilesz then (fs.wholeFile ino).getD ((x.phdr i).pOffset + k) 0 else 0) := by
  subst hx
  obtain ⟨⟨node, w₁⟩, hlook, hrun⟩ := Option.bind_eq_some_iff.1 he
  obtain rfl := hfind.2 w node w₁ hlook
  have hfile : (fs.vfsNode n : VfsNode σ).IsFile (fs.wholeFile ino) := vfsNode_isFile hread
  have hsz : (fs.wholeFile ino).length = fs.fileSize ino := fs.length_wholeFile ino
  have hinside := kmalloc_inside hheap hsize hk
  have hk' := hk
  rw [← hsz] at hk'
  obtain ⟨v, hcall, hm, hr⟩ := runNode_started hfile (hlen.trans hsz.symm) hk' hrun
  obtain ⟨heap, l, rfl, -⟩ := (kmalloc_cases hk).2
  have hend : buf + (fs.wholeFile ino).length ≤ 2 ^ 32 := by
    rw [hsz]
    unfold heapEnd kernelHeapBegin kernelHeapSize at hinside
    omega
  have hI : Isolated ({ s with heap := heap, live := l ++ s.live } : Exec).machine ds := h
  have hstart := program_started hI htemp hin hend hvalid hseg hcall
  have hall : ProgramStarted s t (fileBuffer mem buf (fs.wholeFile ino))
    (argv.take 64) ds process s.machine.pmm.mmapFindFree := by
    refine ⟨hstart.fresh, ?_, ?_, ?_, ?_⟩
    · rw [hr]
      exact hstart.directory
    · rw [hm]
      exact hstart.isolated
    · rw [hm]
      exact hstart.program
    · rw [hm]
      exact hstart.others
  refine ⟨hall, fun i hi hload k hk => ?_⟩
  obtain ⟨-, hfit, hbyte⟩ := hall.program.segments i hi hload k hk
  rw [hbyte]
  -- the bytes of the file, then zeros
  by_cases hkf : k < ((fileBuffer mem buf (fs.wholeFile ino)).phdr i).pFilesz
  · rw [if_pos hkf, if_pos hkf]
    exact congrArg some (fileBuffer_byte (hfit hkf))
  · rw [if_neg hkf, if_neg hkf]

/-- One process, whose directory is in frame 1 and whose page table for the temporary page is in frame 2. -/
def diskSpace : Machine :=
  { pmm := ⟨fun i => if i = 0 then 7#32 else 0#32, 3, 64, blocks_64⟩
    phys := fun f i => if f = 1 ∧ i = 1023 then 0x1003#32 else if f = 1 ∧ i = 769 then 0x2003#32 else 0#32
    cr3 := 1
    tableLost := false }

theorem diskSpace_table {i : ℕ} (ht : HasTable diskSpace i) : i = 769 := by
  obtain ⟨hi, hp, -⟩ := ht
  by_contra hne
  have hz : diskSpace.dir i = 0 := (if_neg fun h => by omega).trans (if_neg fun h => hne h.2)
  rw [hz] at hp
  exact not_present_zero hp

theorem diskSpace_frame : diskSpace.tableFrame 769 = 2 := by decide

theorem diskSpace_entry (j : ℕ) : diskSpace.entry 769 j = 0 := by
  have hne : ¬ (2 = 1 ∧ j = 1023) ∧ ¬ (2 = 1 ∧ j = 769) := by omega
  unfold Machine.entry
  rw [diskSpace_frame]
  simp only [diskSpace, if_neg hne.1, if_neg hne.2]
  rfl

theorem diskSpace_dir {i : ℕ} (hi : i < kernelEntry) : diskSpace.dir i = 0 := by
  unfold kernelEntry at hi
  exact (if_neg fun h => by omega).trans (if_neg fun h => by omega)

theorem diskSpace_user : UserOK diskSpace := by
  refine .of_kernel ⟨by decide, by decide, fun i hi => ?_, fun i hi => ?_, fun i hi => ?_, fun i j hi hj _ => ?_,
    fun i hi j => ?_⟩ (by decide) fun i => diskSpace_dir
  · rw [diskSpace_table hi, diskSpace_frame]
    decide
  · rw [diskSpace_table hi, diskSpace_frame]
    decide
  · rw [diskSpace_table hi, diskSpace_frame]
    decide
  · rw [diskSpace_table hi, diskSpace_table hj]
  · rw [diskSpace_table hi]
    exact .inr (diskSpace_entry j)

theorem diskSpace_owned : diskSpace.owned 1 = {1} := owned_of_kernel fun _ => diskSpace_dir

theorem diskSpace_isolated : Isolated diskSpace {1} := by
  refine ⟨rfl, rfl, ?_, ?_, Set.pairwiseDisjoint_singleton _ _, ?_, ?_⟩
  · rintro d rfl
    exact diskSpace_user
  · rintro d rfl h0
    rw [diskSpace_owned] at h0
    cases h0
  · rintro d rfl e rfl
    rw [diskSpace_owned, Set.disjoint_singleton_right]
    rintro ⟨i, -, ht, hframe⟩
    rw [diskSpace_table ht] at hframe
    exact absurd hframe (by decide)
  · rintro d rfl
    decide

theorem disk_size : 6144 < 2 ^ 32 := by decide

/-- The small image, with a program as its file. -/
def diskImage : Image where
  size := 6144
  bytes i := if i = 3332 then 84 else if i < 5120 then Ext2Fs.smallImage.bytes i
    else oneSegment.mem (0xC0500000 + (i - 5120))
  size_lt := disk_size

def diskNode : Ext2Node := ⟨3, false, 84, [97]⟩

def diskFs : Ext2Fs := ⟨diskImage, 1024, 128, Ext2Fs.block_1024, Ext2Fs.inode_128⟩

theorem disk_readable : diskFs.Readable 3 3328 ∧ diskFs.fileSize 3328 = 84 := by
  have hsize : diskFs.fileSize 3328 = 84 := by decide +kernel
  refine ⟨⟨rfl, ⟨0x8000, by decide +kernel, by decide⟩, ⟨⟨0, rfl⟩, by decide, fun i hi => ?_, ?_, ?_, ?_⟩, ?_,
    ?_⟩, hsize⟩
  · interval_cases i <;> decide +kernel
  · decide +kernel
  · decide +kernel
  · decide +kernel
  · rw [hsize]
    norm_num
  · intro pos hpos hfar
    have h12 : (12 + diskFs.perBlock) * diskFs.blockSize = 274432 := by decide +kernel
    omega

/-- A kernel with an empty heap that runs one process. -/
def diskStart : Exec := ⟨⟨fun _ => 0, 0, 0, 0⟩, [], diskSpace, schedRobin fun _ => none, 0xC0401000, 1⟩

/-- The buffer for the file. -/
def diskBuffer : ℕ × Exec := (diskStart.kmalloc 9 84).getD (0, diskStart)

/-- The program in it. -/
def diskProgram : Binary := fileBuffer (fun _ => 0) diskBuffer.1 (diskFs.wholeFile 3328)

/-- The new process. -/
def diskRun : ℕ × Exec :=
  (diskBuffer.2.procRunCode 9 diskProgram [[0x61]]).elim (0, diskStart) fun (p, s) => (p.getD 0, s)

/-- The new address space of a call, computed. -/
def newSpaceOf (s : Exec) : Option (ℕ × Machine) :=
  s.machine.pmm.pmmAllocPage.bind fun (pd, pmm) => ((s.machine.withPmm pmm).copyDirectory s.tempPage pd).map
    fun m => (pd, m)

theorem NewSpace.eq {pd : ℕ} {m : Machine} (h : NewSpace s pd m) : newSpaceOf s = some (pd, m) := by
  obtain ⟨pmm, hal, -, hcopy⟩ := h
  unfold newSpaceOf
  rw [hal, Option.bind_some]
  simp only
  rw [hcopy, Option.map_some]

/-- What the run computes. -/
structure DiskComputed : Prop where
  buffer : (diskStart.kmalloc 9 84).isSome
  temp : diskBuffer.2.tempPage ≠ 0 ∧ dirIndex diskBuffer.2.tempPage = 769
  table : present (diskBuffer.2.machine.dir 769) ∧ ¬ large (diskBuffer.2.machine.dir 769)
  valid : diskProgram.elfIsValid
  phnum : diskProgram.ePhnum = 1
  phdr : (diskProgram.phdr 0).pOffset + (diskProgram.phdr 0).pFilesz < 2 ^ 32 ∧
    (diskProgram.phdr 0).pVaddr % 4096 + (diskProgram.phdr 0).pFilesz ≤ (diskProgram.phdr 0).pages * 4096 ∧
    (diskProgram.phdr 0).pMemsz ≠ 0 ∧ (diskProgram.phdr 0).pVaddr + (diskProgram.phdr 0).pMemsz ≤ 0xC0000000 ∧
    (diskProgram.phdr 0).pVaddr + (diskProgram.phdr 0).pFilesz ≤ 0xC0000000
  frames : ∀ y ∈ newSpaceOf diskBuffer.2,
    diskProgram.FramesFound (y.2.pagingSwitchDirectory y.1) 0 diskProgram.ePhnum ∧
    ∀ z ∈ diskProgram.load (y.2.pagingSwitchDirectory y.1), RegionFrames z.2 0xBFFFC procStackPages
  run : (diskBuffer.2.procRunCode 9 diskProgram [[0x61]]).map (fun y => y.1.isSome) = some true

theorem disk_computed : DiskComputed := by
  constructor <;> decide +kernel

theorem diskBuffer_eq : diskStart.kmalloc 9 84 = some (diskBuffer.1, diskBuffer.2) := by
  obtain ⟨b, hb⟩ := Option.isSome_iff_exists.1 disk_computed.buffer
  rw [diskBuffer, hb, Option.getD_some]

theorem diskRun_eq : diskBuffer.2.procRunCode 9 diskProgram [[0x61]] = some (some diskRun.1, diskRun.2) := by
  obtain ⟨⟨p, s⟩, hp, hsome⟩ := Option.map_eq_some_iff.1 disk_computed.run
  obtain ⟨p, rfl⟩ := Option.isSome_iff_exists.1 hsome
  rw [diskRun, hp]
  rfl

theorem disk_phdr {i : ℕ} (hi : i < diskProgram.ePhnum) : i = 0 := by
  have hnum := disk_computed.phnum
  omega

theorem disk_segment {i : ℕ} (hi : i < diskProgram.ePhnum) : SegmentOK (diskProgram.phdr i) := by
  obtain ⟨hfile, hcopy, hne, huser, -⟩ := disk_computed.phdr
  rw [disk_phdr hi]
  exact ⟨hfile, hcopy, fun h => absurd h hne, huser⟩

theorem disk_inside : ExecInside diskBuffer.2 diskProgram [[0x61]] := by
  obtain ⟨-, htemp⟩ := disk_computed.temp
  refine ⟨⟨?_, ?_⟩, ?_, by decide, fun pd m hnew => ?_, fun pd m m₁ hnew hload => ?_⟩
  · rw [htemp]
    decide
  · rw [htemp]
    exact ⟨by decide, disk_computed.table⟩
  · unfold Binary.Below
    rw [if_pos disk_computed.valid]
    intro i hi _
    rw [disk_phdr hi]
    obtain ⟨-, -, -, hbelow⟩ := disk_computed.phdr
    exact hbelow
  · unfold Binary.LoadFrames
    rw [if_pos disk_computed.valid]
    exact (disk_computed.frames _ hnew.eq).1
  · exact (disk_computed.frames _ hnew.eq).2 _ hload

/-- A program of one segment is started from the disk. -/
theorem program_from_disk_small :
    ∃ t w', diskStart.procRunPath (logDrivers (diskFs.vfsNode diskNode)) 9 [] (fun _ => 0)
      [slash, 97] [[0x61]] = some (some diskRun.1, t, w') ∧
    ProgramStarted diskStart t diskProgram [[0x61]] {1} diskRun.1 diskSpace.pmm.mmapFindFree ∧
      ∀ i < diskProgram.ePhnum, diskProgram.Loads i → ∀ k < (diskProgram.phdr i).pMemsz,
        (t.machine.under diskSpace.pmm.mmapFindFree).byteAt ((diskProgram.phdr i).pVaddr + k) =
          some (if k < (diskProgram.phdr i).pFilesz then (diskFs.wholeFile 3328).getD
            ((diskProgram.phdr i).pOffset + k) 0 else 0) := by
  obtain ⟨hreadable, hsize⟩ := disk_readable
  have hwhole : (diskFs.wholeFile 3328).length = 84 := (diskFs.length_wholeFile 3328).trans hsize
  have hlen : (diskFs.vfsNode diskNode : VfsNode (List UInt8)).length = (diskFs.wholeFile 3328).length := hwhole.symm
  have hbuffer := diskBuffer_eq
  rw [← hsize] at hbuffer
  have hbuffer' := diskBuffer_eq
  rw [← hwhole] at hbuffer'
  have hfile : (diskFs.vfsNode diskNode : VfsNode (List UInt8)).IsFile (diskFs.wholeFile 3328) :=
    vfsNode_isFile hreadable
  have hne : (diskFs.wholeFile 3328).length ≠ 0 := by
    rw [hwhole]
    decide
  have hrun := runNode_file (by decide) hfile hlen hne hbuffer' [] (fun _ => 0) [[0x61]]
  have hcall : Exec.procRunCode 9 diskBuffer.2
    (fileBuffer (fun _ => 0) diskBuffer.1 (diskFs.wholeFile 3328)) [[0x61]] = _ := diskRun_eq
  rw [hcall, Option.map_some] at hrun
  have hfind : (logDrivers (diskFs.vfsNode diskNode)).Finds [slash, 97] (diskFs.vfsNode diskNode) := by
    refine ⟨by decide, fun w node' w' h => ?_⟩
    cases h
    rfl
  have hseg : ∀ i < diskProgram.ePhnum, diskProgram.Loads i → SegmentOK (diskProgram.phdr i) :=
    fun i hi _ => disk_segment hi
  have hheap : HeapLive diskStart := by
    refine ⟨List.nodup_nil, .inl ⟨rfl, rfl, ?_⟩⟩
    ext p
    exact iff_of_false List.not_mem_nil (Set.notMem_empty p)
  have htemp : diskBuffer.2.allocTempPage 9 = some diskBuffer.2 := if_neg disk_computed.temp.1
  have hx : diskProgram = fileBuffer (fun _ => 0) diskBuffer.1 (diskFs.wholeFile 3328) := by rw [diskProgram]
  have hlook : (logDrivers (diskFs.vfsNode diskNode)).vfsLookup [slash, 97] [] =
    some (some (diskFs.vfsNode diskNode), []) := rfl
  have he : diskStart.procRunPath (logDrivers (diskFs.vfsNode diskNode)) 9 [] (fun _ => 0) [slash, 97] [[0x61]] = _ :=
    (procRunPath_found hlook).trans hrun
  have hfits : diskFs.fileSize 3328 ≤ kernelHeapSize := by
    rw [hsize]
    decide
  exact ⟨_, _, he, program_from_disk diskSpace_isolated hheap hreadable hsize.symm hfind hfits hbuffer hx
    htemp disk_inside disk_computed.valid hseg he⟩

end Saynaa
