/-
# The module from insmod to rmmod

`aesd_init_module`, `aesd_setup_cdev` and `aesd_cleanup_module` as calls on the kernel, one at a
time and with every result the kernel may give, and the device's life between them: files are
opened, used and closed, in any order.  The kernel counts the open files (`.owner` is
`THIS_MODULE`), so the module is taken out only when there are none.

What is registered with the kernel is a small state of its own, and its discipline (`Registry.act`)
says what may come when: a device number, an initialised mutex, then the device, and back in the
opposite order; and no file operation reaches a device that is not there.  No path comes back to a
call that registers something or takes it back (`Module.Step.stage`), so each is made at most once.
`module_life` says that the module keeps to the discipline on every path, gives everything back, and
what it leaves in memory.
-/
import Aesd.Driver.Ownership
import Aesd.Lib.Discipline

namespace Aesd.Driver

open Transition Discipline

/-! ## 1. Device numbers -/

/-- `MINORBITS` -/
def minorbits : ℕ := 20

/-- `MAJOR` -/
def major (dev : ℕ) : ℕ := dev / 2 ^ minorbits

/-- `MINOR` -/
def minor (dev : ℕ) : ℕ := dev % 2 ^ minorbits

/-- `MKDEV` -/
def mkdev (major minor : ℕ) : ℕ := major * 2 ^ minorbits + minor

theorem mkdev_major_minor (dev : ℕ) : mkdev (major dev) (minor dev) = dev := by
  unfold mkdev major minor
  exact Nat.div_add_mod' dev _

/-! ## 2. Calls and results -/

inductive LogLevel
  | warning
  | err
  deriving DecidableEq

/-- The calls of the module on the kernel, `kfree` apart. -/
inductive ModuleOp
  | allocChrdevRegion (baseminor count : ℕ) (name : String)
  | mutexInit
  | cdevInit
  | cdevAdd (devno count : ℕ)
  | printk (level : LogLevel) (format : String) (arg : ℤ)
  | mutexDestroy
  | unregisterChrdevRegion (devno count : ℕ)
  | cdevDel
  | kfree
  deriving DecidableEq

/-- What a call returns, and the device number `alloc_chrdev_region` stores. -/
structure ModuleRet where
  val : ℤ := 0
  dev : ℕ := 0
  deriving DecidableEq

/-- What the kernel may answer: 0 or a negative error, and a number with the minor asked for. -/
def ModuleOp.Answers : ModuleOp → ModuleRet → Prop
  | allocChrdevRegion baseminor _ _, ret =>
    (ret.val < 0 ∧ ret.dev = 0) ∨ (ret.val = 0 ∧ minor ret.dev = baseminor)
  | cdevAdd _ _, ret => ret.val ≤ 0
  | _, _ => True

instance : ∀ (op : ModuleOp) (ret : ModuleRet), Decidable (op.Answers ret)
  | .allocChrdevRegion baseminor _ _, ret => inferInstanceAs
    (Decidable ((ret.val < 0 ∧ ret.dev = 0) ∨ (ret.val = 0 ∧ minor ret.dev = baseminor)))
  | .cdevAdd _ _, ret => inferInstanceAs (Decidable (ret.val ≤ 0))
  | .mutexInit, _ | .cdevInit, _ | .printk _ _ _, _ | .mutexDestroy, _
  | .unregisterChrdevRegion _ _, _ | .cdevDel, _ | .kfree, _ => isTrue trivial

inductive ModuleEvent
  /-- A call of the module on the kernel. -/
  | kernel (op : ModuleOp) (ret : ModuleRet)
  /-- A file operation. -/
  | call (c : Call)
  /-- `aesd_release`, which does nothing. -/
  | release (filp : ℕ)
  /-- The module is to be taken out. -/
  | rmmod

/-! ## 3. The module -/

/-- `aesd_minor` -/
def aesdMinor : ℕ := 0

/-- The points of `aesd_init_module` and `aesd_cleanup_module`, with the locals alive there, and
the device's life between. -/
inductive ModulePoint
  | allocRegion
  | majorLog (result : ℤ)
  | mutexInit (dev : ℕ)
  | cdevInit (dev : ℕ)
  | cdevAdd (dev devno : ℕ)
  | cdevLog (dev : ℕ) (err : ℤ)
  | undoMutex (dev : ℕ) (result : ℤ)
  | undoRegion (dev : ℕ) (result : ℤ)
  | live
  | cdevDel (devno : ℕ)
  | mutexDestroy (devno : ℕ)
  | freeEntry (devno : ℕ)
  | freeSlots (devno : ℕ) (left : List (Fin maxWriteOperationsSupported))
  | unregister (devno : ℕ)
  | refused (result : ℤ)
  | gone
  deriving DecidableEq

/-- The module: where it is, `aesd_major`, the driver's state, and the open files. -/
structure Module where
  point : ModulePoint
  aesdMajor : ℕ
  driver : DriverState
  files : List ℕ

/-- The call made at a point. -/
def Module.op (m : Module) : Option ModuleOp :=
  match m.point with
  | .allocRegion => some (.allocChrdevRegion aesdMinor 1 "aesdchar")
  | .majorLog _ => some (.printk .warning "Can't get major %d\n" m.aesdMajor)
  | .mutexInit _ => some .mutexInit
  | .cdevInit _ => some .cdevInit
  | .cdevAdd _ devno => some (.cdevAdd devno 1)
  | .cdevLog _ err => some (.printk .err "Error %d adding aesd cdev" err)
  | .undoMutex _ _ | .mutexDestroy _ => some .mutexDestroy
  | .undoRegion dev _ => some (.unregisterChrdevRegion dev 1)
  | .cdevDel _ => some .cdevDel
  | .freeEntry _ | .freeSlots _ _ => some .kfree
  | .unregister devno => some (.unregisterChrdevRegion devno 1)
  | .live | .refused _ | .gone => none

/-- The head of the loop over the slots. -/
def foreachSlot (devno : ℕ) : List (Fin maxWriteOperationsSupported) → ModulePoint
  | [] => .unregister devno
  | index :: left => .freeSlots devno (index :: left)

/-- The module after the call made at its point returns `ret`. -/
def Module.resume (m : Module) (ret : ModuleRet) : Module :=
  match m.point with
  | .allocRegion =>
    { m with
      aesdMajor := major ret.dev
      point := if ret.val < 0 then .majorLog ret.val else .mutexInit ret.dev }
  | .majorLog result => { m with point := .refused result }
  | .mutexInit dev =>
    -- the `memset`s and `aesd_circular_buffer_init` are before it
    { m with driver := { aesdInitModule with heap := m.driver.heap }, point := .cdevInit dev }
  | .cdevInit dev => { m with point := .cdevAdd dev (mkdev m.aesdMajor aesdMinor) }
  | .cdevAdd dev _ =>
    { m with point := if ret.val ≠ 0 then .cdevLog dev ret.val else .live }
  | .cdevLog dev err => { m with point := .undoMutex dev err }
  | .undoMutex dev result => { m with point := .undoRegion dev result }
  | .undoRegion _ result => { m with point := .refused result }
  | .cdevDel devno => { m with point := .mutexDestroy devno }
  | .mutexDestroy devno => { m with point := .freeEntry devno }
  | .freeEntry devno =>
    { m with
      driver := m.driver.setHeap (m.driver.heap.kfree m.driver.dev.entry.buffptr)
      point := foreachSlot devno (List.finRange maxWriteOperationsSupported) }
  | .freeSlots devno left =>
    match left with
    | [] => m
    | index :: left =>
      { m with
        driver := m.driver.setHeap (m.driver.heap.kfree (m.driver.dev.buffer.entry index).buffptr)
        point := foreachSlot devno left }
  | .unregister _ => { m with point := .gone }
  | .live | .refused _ | .gone => m

/-- Whether a call may be made while `files` are open. -/
def Call.OnFile (files : List ℕ) : Call → Prop
  | .open filp => filp ∉ files
  | c => c.filp ∈ files

instance (files : List ℕ) : (c : Call) → Decidable (c.OnFile files)
  | .open filp => inferInstanceAs (Decidable (filp ∉ files))
  | .read filp _ _ => inferInstanceAs (Decidable (filp ∈ files))
  | .write filp _ _ => inferInstanceAs (Decidable (filp ∈ files))
  | .seek filp _ _ _ => inferInstanceAs (Decidable (filp ∈ files))
  | .ioctl filp _ _ _ => inferInstanceAs (Decidable (filp ∈ files))

/-- The open files after a call. -/
def Call.filesAfter (files : List ℕ) : Call → List ℕ
  | .open filp => filp :: files
  | _ => files

/-- The steps of the module and of those who use it. -/
inductive Module.Step : Module → ModuleEvent → Module → Prop
  | kernel {m : Module} {op : ModuleOp} {ret : ModuleRet} : m.op = some op → op.Answers ret →
      Step m (.kernel op ret) (m.resume ret)
  | call {m : Module} {c : Call} : m.point = .live → c.OnFile m.files →
      Step m (.call c) { m with driver := (m.driver.exec c).1, files := c.filesAfter m.files }
  | release {m : Module} {filp : ℕ} : m.point = .live → filp ∈ m.files →
      Step m (.release filp) { m with files := m.files.erase filp }
  | rmmod {m : Module} : m.point = .live → m.files = [] →
      Step m .rmmod { m with point := .cdevDel (mkdev m.aesdMajor aesdMinor) }

/-- The module when it is put in. -/
def insmod : Module := ⟨.allocRegion, 0, aesdInitModule, []⟩

/-- What may be chosen for a step. -/
inductive ModuleChoice
  | kernel (ret : ModuleRet)
  | call (c : Call)
  | release (filp : ℕ)
  | rmmod

/-- The step a choice leads to, if it is possible. -/
def Module.next (m : Module) : ModuleChoice → Option (ModuleEvent × Module)
  | .kernel ret =>
    match m.op with
    | some op => if op.Answers ret then some (.kernel op ret, m.resume ret) else none
    | none => none
  | .call c =>
    if m.point = .live ∧ c.OnFile m.files then
      some (.call c, { m with driver := (m.driver.exec c).1, files := c.filesAfter m.files })
    else none
  | .release filp =>
    if m.point = .live ∧ filp ∈ m.files then
      some (.release filp, { m with files := m.files.erase filp })
    else none
  | .rmmod =>
    if m.point = .live ∧ m.files = [] then
      some (.rmmod, { m with point := .cdevDel (mkdev m.aesdMajor aesdMinor) })
    else none

theorem Module.step_of_next (m : Module) (choice : ModuleChoice) (e : ModuleEvent) (m' : Module)
    (h : m.next choice = some (e, m')) : m.Step e m' := by
  cases choice with
  | kernel ret =>
    unfold Module.next at h
    dsimp only at h
    split at h
    · rename_i op hop
      split at h
      · rename_i hans
        obtain ⟨rfl, rfl⟩ := Prod.mk.inj (Option.some.inj h)
        exact Module.Step.kernel hop hans
      · cases h
    · cases h
  | call c =>
    unfold Module.next at h
    dsimp only at h
    split at h
    · rename_i hc
      obtain ⟨rfl, rfl⟩ := Prod.mk.inj (Option.some.inj h)
      exact Module.Step.call hc.1 hc.2
    · cases h
  | release filp =>
    unfold Module.next at h
    dsimp only at h
    split at h
    · rename_i hc
      obtain ⟨rfl, rfl⟩ := Prod.mk.inj (Option.some.inj h)
      exact Module.Step.release hc.1 hc.2
    · cases h
  | rmmod =>
    unfold Module.next at h
    dsimp only at h
    split at h
    · rename_i hc
      obtain ⟨rfl, rfl⟩ := Prod.mk.inj (Option.some.inj h)
      exact Module.Step.rmmod hc.1 hc.2
    · cases h

/-! ## 4. What is registered with the kernel -/

/-- The device number, whether the mutex is initialised, and whether the device is there. -/
structure Registry where
  region : Option ℕ := none
  mutex : Bool := false
  device : Bool := false
  deriving DecidableEq

namespace Registry

/-- The discipline. -/
def act (r : Registry) : ModuleEvent → Option Registry
  | .kernel (.allocChrdevRegion _ _ _) ret =>
    if r = {} then some (if ret.val < 0 then {} else { region := some ret.dev }) else none
  | .kernel .mutexInit _ =>
    if r.mutex = false ∧ r.device = false then some { r with mutex := true } else none
  | .kernel .cdevInit _ => if r.device = false then some r else none
  | .kernel (.cdevAdd devno _) ret =>
    if r.region = some devno ∧ r.mutex = true ∧ r.device = false then
      some { r with device := ret.val = 0 }
    else none
  | .kernel (.printk _ _ _) _ => some r
  | .kernel .cdevDel _ => if r.device = true then some { r with device := false } else none
  | .kernel .mutexDestroy _ =>
    if r.mutex = true ∧ r.device = false then some { r with mutex := false } else none
  | .kernel .kfree _ => if r.mutex = false ∧ r.device = false then some r else none
  | .kernel (.unregisterChrdevRegion devno _) _ =>
    if r = { region := some devno } then some {} else none
  | .call _ | .release _ | .rmmod => if r.mutex = true ∧ r.device = true then some r else none

end Registry

/-- What is registered at a point. -/
def Module.registry (m : Module) : Registry :=
  match m.point with
  | .allocRegion | .majorLog _ | .refused _ | .gone => {}
  | .mutexInit dev | .undoRegion dev _ => { region := some dev }
  | .cdevInit dev | .cdevAdd dev _ | .cdevLog dev _ | .undoMutex dev _ =>
    { region := some dev, mutex := true }
  | .live => { region := some (mkdev m.aesdMajor aesdMinor), mutex := true, device := true }
  | .cdevDel devno => { region := some devno, mutex := true, device := true }
  | .mutexDestroy devno => { region := some devno, mutex := true }
  | .freeEntry devno | .freeSlots devno _ | .unregister devno => { region := some devno }

/-- The number the module makes of `aesd_major` is the one the kernel gave it. -/
def Module.Numbered (m : Module) : Prop :=
  match m.point with
  | .mutexInit dev | .cdevInit dev => mkdev m.aesdMajor aesdMinor = dev
  | .cdevAdd dev devno => mkdev m.aesdMajor aesdMinor = dev ∧ devno = dev
  | _ => True

theorem Module.registry_foreachSlot (devno : ℕ) (left : List (Fin maxWriteOperationsSupported))
    {m : Module} (h : m.point = foreachSlot devno left) :
    m.registry = { region := some devno } ∧ m.Numbered := by
  cases left <;> simp [Module.registry, Module.Numbered, h, foreachSlot]

variable {m m' : Module} {e : ModuleEvent}

/-- **One step** is allowed by the discipline, and keeps the number. -/
theorem Module.Step.registry (hs : m.Step e m') (hn : m.Numbered) :
    m.registry.act e = some m'.registry ∧ m'.Numbered := by
  cases hs with
  | call hlive | release hlive | rmmod hlive =>
    simp [Module.registry, Module.Numbered, hlive, Registry.act]
  | @kernel op ret hop hans =>
    obtain ⟨point, aesdMajor, driver, files⟩ := m
    cases point with
    | allocRegion =>
      obtain rfl := Option.some.inj hop
      rcases hans with ⟨hneg, -⟩ | ⟨hzero, hminor⟩
      · simp [Module.registry, Module.Numbered, Module.resume, Registry.act, hneg]
      · have hdev : mkdev (major ret.dev) aesdMinor = ret.dev := by
          rw [← hminor, mkdev_major_minor]
        simp [Module.registry, Module.Numbered, Module.resume, Registry.act, hzero, hdev]
    | cdevAdd dev devno =>
      obtain rfl := Option.some.inj hop
      obtain ⟨hdev, rfl⟩ := hn
      by_cases hzero : ret.val = 0
      · have hreg : mkdev aesdMajor aesdMinor = devno := hdev
        simp [Module.registry, Module.Numbered, Module.resume, Registry.act, hzero, hreg]
      · simp [Module.registry, Module.Numbered, Module.resume, Registry.act, hzero]
    | cdevInit dev =>
      obtain rfl := Option.some.inj hop
      have hdev : mkdev aesdMajor aesdMinor = dev := hn
      simp [Module.registry, Module.Numbered, Module.resume, Registry.act, hdev]
    | mutexInit dev =>
      obtain rfl := Option.some.inj hop
      have hdev : mkdev aesdMajor aesdMinor = dev := hn
      simp [Module.registry, Module.Numbered, Module.resume, Registry.act, hdev]
    | freeEntry devno =>
      obtain rfl := Option.some.inj hop
      obtain ⟨hreg, hnum⟩ := Module.registry_foreachSlot devno
        (List.finRange maxWriteOperationsSupported)
        (m := Module.resume ⟨.freeEntry devno, aesdMajor, driver, files⟩ ret) rfl
      exact ⟨by rw [hreg]; rfl, hnum⟩
    | freeSlots devno left =>
      obtain rfl := Option.some.inj hop
      cases left with
      | nil => exact ⟨rfl, trivial⟩
      | cons index left =>
        obtain ⟨hreg, hnum⟩ := Module.registry_foreachSlot devno left
          (m := Module.resume ⟨.freeSlots devno (index :: left), aesdMajor, driver, files⟩ ret) rfl
        exact ⟨by rw [hreg]; rfl, hnum⟩
    | majorLog | cdevLog | undoMutex | undoRegion | cdevDel | mutexDestroy | unregister =>
      obtain rfl := Option.some.inj hop
      simp [Module.registry, Module.Numbered, Module.resume, Registry.act]
    | live | refused | gone => cases hop

/-! ## 5. Each at most once -/

/-- The calls that register something with the kernel or take it back. -/
inductive Registration
  | allocChrdevRegion
  | mutexInit
  | cdevInit
  | cdevAdd
  | cdevDel
  | mutexDestroy
  | unregisterChrdevRegion
  deriving DecidableEq

/-- Which of them a call is; a message and a `kfree` are none. -/
def ModuleOp.registration : ModuleOp → Option Registration
  | allocChrdevRegion _ _ _ => some .allocChrdevRegion
  | mutexInit => some .mutexInit
  | cdevInit => some .cdevInit
  | cdevAdd _ _ => some .cdevAdd
  | cdevDel => some .cdevDel
  | mutexDestroy => some .mutexDestroy
  | unregisterChrdevRegion _ _ => some .unregisterChrdevRegion
  | printk _ _ _ | kfree => none

def ModuleEvent.registration : ModuleEvent → Option Registration
  | kernel op _ => op.registration
  | _ => none

/-- A history of the module. -/
abbrev ModuleLog := List (Module × ModuleEvent)

/-- How often a call was made, whatever was handed over. -/
def ModuleLog.times (h : ModuleLog) (r : Registration) : ℕ :=
  h.countP fun x => x.2.registration = some r

/-- The place of a call among the others. -/
def Registration.stage : Registration → ℕ
  | allocChrdevRegion => 0
  | mutexInit => 1
  | cdevInit => 2
  | cdevAdd => 3
  | cdevDel => 4
  | mutexDestroy => 5
  | unregisterChrdevRegion => 6

/-- From a point on no call of an earlier place is made. -/
def ModulePoint.stage : ModulePoint → ℕ
  | allocRegion => 0
  | mutexInit _ => 1
  | cdevInit _ => 2
  | cdevAdd _ _ => 3
  | cdevLog _ _ | live | cdevDel _ => 4
  | undoMutex _ _ | mutexDestroy _ => 5
  | undoRegion _ _ | freeEntry _ | freeSlots _ _ | unregister _ => 6
  | majorLog _ | refused _ | gone => 7

theorem ModulePoint.stage_foreachSlot (devno : ℕ) (left : List (Fin maxWriteOperationsSupported)) :
    (foreachSlot devno left).stage = 6 := by
  cases left <;> rfl

/-- **No way leads back**, and a call that registers or takes back is left behind. -/
theorem Module.Step.stage (hs : m.Step e m') :
    m.point.stage ≤ m'.point.stage ∧ ∀ r, e.registration = some r →
      r.stage = m.point.stage ∧ m.point.stage < m'.point.stage := by
  cases hs with
  | call | release => exact ⟨le_rfl, fun r hr => by cases hr⟩
  | rmmod hlive =>
    rw [hlive]
    exact ⟨le_rfl, fun r hr => by cases hr⟩
  | @kernel op ret hop hans =>
    obtain ⟨point, aesdMajor, driver, files⟩ := m
    cases point with
    | allocRegion =>
      obtain rfl := Option.some.inj hop
      refine ⟨Nat.zero_le _, fun r hr => ?_⟩
      obtain rfl := Option.some.inj hr
      refine ⟨rfl, ?_⟩
      show 0 < (Module.resume ⟨.allocRegion, aesdMajor, driver, files⟩ ret).point.stage
      unfold Module.resume
      dsimp only
      split <;> simp [ModulePoint.stage]
    | cdevAdd dev devno =>
      obtain rfl := Option.some.inj hop
      have hnext : (Module.resume ⟨.cdevAdd dev devno, aesdMajor, driver, files⟩ ret).point.stage =
          4 := by
        unfold Module.resume
        dsimp only
        split <;> rfl
      rw [hnext]
      refine ⟨Nat.le_succ 3, fun r hr => ?_⟩
      obtain rfl := Option.some.inj hr
      exact ⟨rfl, Nat.lt_succ_self 3⟩
    | freeEntry devno =>
      obtain rfl := Option.some.inj hop
      refine ⟨?_, fun r hr => by cases hr⟩
      exact (ModulePoint.stage_foreachSlot devno (List.finRange maxWriteOperationsSupported)).ge
    | freeSlots devno left =>
      obtain rfl := Option.some.inj hop
      refine ⟨?_, fun r hr => by cases hr⟩
      cases left with
      | nil => exact le_rfl
      | cons index left => exact (ModulePoint.stage_foreachSlot devno left).ge
    | majorLog | cdevLog =>
      obtain rfl := Option.some.inj hop
      exact ⟨by simp [ModulePoint.stage, Module.resume], fun r hr => by cases hr⟩
    | mutexInit | cdevInit | undoMutex | undoRegion | cdevDel | mutexDestroy | unregister =>
      obtain rfl := Option.some.inj hop
      refine ⟨by simp [ModulePoint.stage, Module.resume], fun r hr => ?_⟩
      obtain rfl := Option.some.inj hr
      exact ⟨rfl, by simp [ModulePoint.stage, Module.resume]⟩
    | live | refused | gone => cases hop

/-- How often a call may still come. -/
def ModulePoint.toCome (p : ModulePoint) (r : Registration) : ℕ :=
  if p.stage ≤ r.stage then 1 else 0

/-- A call that is made comes no more. -/
theorem Module.Step.toCome (hs : m.Step e m') (r : Registration) :
    m'.point.toCome r + (decide (e.registration = some r)).toNat ≤ m.point.toCome r := by
  obtain ⟨hle, hmade⟩ := hs.stage
  unfold ModulePoint.toCome
  by_cases he : e.registration = some r
  · obtain ⟨hat, hlt⟩ := hmade r he
    simp [he, hat, Nat.not_le.mpr hlt]
  · simp only [he, decide_false, Bool.toNat_false, Nat.add_zero]
    split
    · rename_i hbefore
      rw [if_pos (hle.trans hbefore)]
    · exact Nat.zero_le _

/-- **Each at most once**, in any run. -/
theorem Module.times_le_one {m₀ : Module} {h : ModuleLog} (hr : Run Module.Step m₀ h m)
    (r : Registration) : h.times r ≤ 1 := by
  have hcount := hr.count_le (fun e => e.registration = some r) (fun _ m => m.point.toCome r)
    fun _ hs => hs.toCome r
  have hone : m₀.point.toCome r ≤ 1 := by
    unfold ModulePoint.toCome
    split <;> omega
  exact (Nat.le_add_right _ _).trans (hcount.trans hone)

/-! ## 6. The device between -/

/-- The file operations of a history. -/
def ModuleLog.calls (h : ModuleLog) : List Call :=
  h.filterMap fun x => match x.2 with
    | .call c => some c
    | _ => none

/-- A call on the kernel returned `result`. -/
def ModuleLog.Returned (h : ModuleLog) (result : ℤ) : Prop :=
  ∃ x ∈ h, ∃ op ret, x.2 = .kernel op ret ∧ ret.val = result

/-- What is known of the driver at each point, after the file operations `calls`. -/
def Module.Holds (m : Module) (h : ModuleLog) : Prop :=
  match m.point with
  | .allocRegion | .mutexInit _ | .cdevInit _ | .cdevAdd _ _ =>
    h.calls = [] ∧ m.driver = aesdInitModule
  | .majorLog result | .cdevLog _ result | .undoMutex _ result | .undoRegion _ result
  | .refused result =>
    result < 0 ∧ h.Returned result ∧ h.calls = [] ∧ m.driver.heap = Heap.init
  | .live | .cdevDel _ | .mutexDestroy _ | .freeEntry _ => m.driver = aesdInitModule.run h.calls
  | .freeSlots _ left =>
    m.driver.dev.buffer = (aesdInitModule.run h.calls).dev.buffer ∧
      left.foldl (fun heap i => heap.kfree (m.driver.dev.buffer.entry i).buffptr) m.driver.heap =
        aesdCleanupModule (aesdInitModule.run h.calls)
  | .unregister _ | .gone => m.driver.heap = aesdCleanupModule (aesdInitModule.run h.calls)

theorem ModuleLog.calls_concat (h : ModuleLog) (m : Module) (op : ModuleOp) (ret : ModuleRet) :
    ModuleLog.calls (h ++ [(m, .kernel op ret)]) = h.calls := by
  simp [ModuleLog.calls]

theorem ModuleLog.Returned.concat {h : ModuleLog} {result : ℤ} (hr : h.Returned result)
    (x : Module × ModuleEvent) : ModuleLog.Returned (h ++ [x]) result := by
  obtain ⟨y, hy, hret⟩ := hr
  exact ⟨y, List.mem_append_left _ hy, hret⟩

theorem ModuleLog.returned_last (h : ModuleLog) (m : Module) (op : ModuleOp) (ret : ModuleRet) :
    ModuleLog.Returned (h ++ [(m, .kernel op ret)]) ret.val :=
  ⟨_, List.mem_append_right _ (List.mem_singleton.mpr rfl), op, ret, rfl, rfl⟩

/-- At the head of the loop over the slots. -/
theorem Module.holds_foreachSlot {h : ModuleLog} (devno : ℕ)
    (left : List (Fin maxWriteOperationsSupported)) {m : Module}
    (hpoint : m.point = foreachSlot devno left)
    (hbuffer : m.driver.dev.buffer = (aesdInitModule.run h.calls).dev.buffer)
    (hheap : left.foldl (fun heap i => heap.kfree (m.driver.dev.buffer.entry i).buffptr)
      m.driver.heap = aesdCleanupModule (aesdInitModule.run h.calls)) : m.Holds h := by
  unfold Module.Holds
  cases left with
  | nil =>
    rw [hpoint]
    exact hheap
  | cons index left =>
    rw [hpoint]
    exact ⟨hbuffer, hheap⟩

/-- **One step.** -/
theorem Module.Step.holds {h : ModuleLog} (hs : m.Step e m') (hh : m.Holds h) :
    m'.Holds (h ++ [(m, e)]) := by
  cases hs with
  | @call c hlive hon =>
    have hrun : m.driver = aesdInitModule.run h.calls := by simpa [Module.Holds, hlive] using hh
    have hcalls : ModuleLog.calls (h ++ [(m, .call c)]) = h.calls ++ [c] := by
      simp [ModuleLog.calls]
    simp [Module.Holds, hlive, hcalls, run_concat, hrun]
  | @release filp hlive hmem =>
    have hrun : m.driver = aesdInitModule.run h.calls := by simpa [Module.Holds, hlive] using hh
    have hcalls : ModuleLog.calls (h ++ [(m, .release filp)]) = h.calls := by
      simp [ModuleLog.calls]
    simpa [Module.Holds, hlive, hcalls] using hrun
  | rmmod hlive hfiles =>
    have hrun : m.driver = aesdInitModule.run h.calls := by simpa [Module.Holds, hlive] using hh
    have hcalls : ModuleLog.calls (h ++ [(m, .rmmod)]) = h.calls := by simp [ModuleLog.calls]
    simpa [Module.Holds, hcalls] using hrun
  | @kernel op ret hop hans =>
    have hcalls := h.calls_concat m op ret
    have hlast := h.returned_last m op ret
    obtain ⟨point, aesdMajor, driver, files⟩ := m
    cases point with
    | allocRegion =>
      obtain rfl := Option.some.inj hop
      obtain ⟨hnone, hdriver⟩ := hh
      have hinit : driver = aesdInitModule := hdriver
      rcases hans with ⟨hneg, -⟩ | ⟨hzero, -⟩
      · have hheap : driver.heap = Heap.init := by rw [hinit]; rfl
        unfold Module.resume
        dsimp only
        rw [if_pos hneg]
        exact ⟨hneg, hlast, hcalls.trans hnone, hheap⟩
      · unfold Module.resume
        dsimp only
        rw [if_neg (by omega)]
        exact ⟨hcalls.trans hnone, hinit⟩
    | mutexInit dev =>
      obtain rfl := Option.some.inj hop
      obtain ⟨hnone, hdriver⟩ := hh
      have hinit : driver = aesdInitModule := hdriver
      exact ⟨hcalls.trans hnone, by rw [Module.resume, hinit]⟩
    | cdevInit dev =>
      obtain rfl := Option.some.inj hop
      exact ⟨hcalls.trans hh.1, hh.2⟩
    | cdevAdd dev devno =>
      obtain rfl := Option.some.inj hop
      obtain ⟨hnone, hdriver⟩ := hh
      have hinit : driver = aesdInitModule := hdriver
      have hle : ret.val ≤ 0 := hans
      unfold Module.resume
      dsimp only
      split
      · have hheap : driver.heap = Heap.init := by rw [hinit]; rfl
        exact ⟨by omega, hlast, hcalls.trans hnone, hheap⟩
      · exact hinit.trans (by rw [hcalls, hnone]; rfl)
    | majorLog result | cdevLog dev result | undoMutex dev result | undoRegion dev result =>
      obtain rfl := Option.some.inj hop
      obtain ⟨hneg, hret, hnone, hheap⟩ := hh
      exact ⟨hneg, hret.concat _, hcalls.trans hnone, hheap⟩
    | cdevDel devno | mutexDestroy devno =>
      obtain rfl := Option.some.inj hop
      have hrun : driver = aesdInitModule.run h.calls := hh
      exact hrun.trans (by rw [hcalls])
    | freeEntry devno =>
      obtain rfl := Option.some.inj hop
      have hrun : driver = aesdInitModule.run h.calls := hh
      refine Module.holds_foreachSlot devno (List.finRange maxWriteOperationsSupported) rfl ?_ ?_
      · rw [hcalls, ← hrun]
        rfl
      · rw [hcalls, ← hrun]
        rfl
    | freeSlots devno left =>
      obtain rfl := Option.some.inj hop
      obtain ⟨hbuffer, hheap⟩ := hh
      cases left with
      | nil => exact ⟨by rw [hcalls]; exact hbuffer, by rw [hcalls]; exact hheap⟩
      | cons index left =>
        refine Module.holds_foreachSlot devno left rfl ?_ ?_
        · rw [hcalls]
          exact hbuffer
        · rw [hcalls]
          exact hheap
    | unregister devno =>
      obtain rfl := Option.some.inj hop
      have hfreed : driver.heap = aesdCleanupModule (aesdInitModule.run h.calls) := hh
      exact hfreed.trans (by rw [hcalls])
    | live | refused | gone => cases hop

/-! ## 7. The whole life -/

/-- **The module's whole life**, whatever the kernel answers and whoever uses the device:

* registrations and file operations keep to the discipline, and each call that registers something
  or takes it back is made at most once;
* while the device is there, it is as its file operations have left it;
* a module that is refused returns the error of the call that failed; nothing is registered any
  more, no file operation was made and nothing allocated;
* when the module is gone nothing is registered any more; every block it was ever given was
  released once, but for one block for each command that was pushed out of the ring. -/
theorem module_life {h : ModuleLog} (hr : Run Module.Step insmod h m) :
    (Keeps Registry.act {} (h.map Prod.snd) m.registry ∧ ∀ r, ModuleLog.times h r ≤ 1) ∧
    (m.point = .live → m.driver = aesdInitModule.run h.calls) ∧
    (∀ result, m.point = .refused result → result < 0 ∧ h.Returned result ∧ m.registry = {} ∧
      h.calls = [] ∧ m.driver.heap = Heap.init) ∧
    (m.point = .gone → m.registry = {} ∧
      m.driver.heap.live.length = aesdInitModule.evictions h.calls ∧
      ∀ id < m.driver.heap.fresh,
        m.driver.heap.released.count id =
          if id ∈ m.driver.heap.live.map Prod.fst then 0 else 1) := by
  have hnum : ∀ {h m}, Run Module.Step insmod h m → m.Numbered := fun hr =>
    hr.invariant (I := Module.Numbered) (by trivial) fun hn hs => (hs.registry hn).2
  have hholds : m.Holds h :=
    hr.rule (Q := fun h m => m.Holds h) ⟨rfl, rfl⟩ fun _ hh hs => hs.holds hh
  refine ⟨⟨keeps_run Module.registry (fun hr hs => (hs.registry (hnum hr)).1) hr,
    Module.times_le_one hr⟩, ?_, ?_, ?_⟩
  · intro hlive
    simpa [Module.Holds, hlive] using hholds
  · intro result href
    obtain ⟨hneg, hret, hnone, hheap⟩ : result < 0 ∧ h.Returned result ∧ h.calls = [] ∧
        m.driver.heap = Heap.init := by simpa [Module.Holds, href] using hholds
    exact ⟨hneg, hret, by rw [Module.registry, href], hnone, hheap⟩
  · intro hgone
    have hfreed : m.driver.heap = aesdCleanupModule (aesdInitModule.run h.calls) := by
      simpa [Module.Holds, hgone] using hholds
    obtain ⟨leaked, hi, hlen⟩ := leaked_run h.calls
    obtain ⟨hw, hperm, -⟩ := hi.cleanup
    rw [← hfreed] at hw hperm
    refine ⟨by rw [Module.registry, hgone], by rw [hperm.length_eq, hlen], fun id hid => ?_⟩
    split
    · rename_i hmem
      exact hw.unreleased id (Or.inl hmem)
    · rename_i hmem
      exact hw.releasedOnce id hid hmem

/-- The module is put in, eleven commands are written through one file, and it is taken out. -/
def elevenAndOut : List ModuleChoice :=
  [.kernel { dev := 5 * 2 ^ 20 }, .kernel {}, .kernel {}, .kernel {}, .call (.open 0)] ++
    List.replicate 11 (.call (.write 0 ⟨[newline], by decide⟩ {})) ++
    [.release 0, .rmmod] ++ List.replicate 14 (.kernel {})

theorem module_life_eleven : ∃ h m, Run Module.Step insmod h m ∧ m.point = .gone ∧
    m.registry = {} ∧ m.driver.heap.live.length = 1 := by
  have hrun := Run.of_played Module.step_of_next insmod elevenAndOut (by decide +kernel)
  obtain ⟨-, -, -, hgone⟩ := module_life hrun
  have hend : (played Module.next insmod elevenAndOut).2.point = .gone := by decide +kernel
  obtain ⟨hreg, hlost, -⟩ := hgone hend
  have hone : aesdInitModule.evictions
      (ModuleLog.calls (played Module.next insmod elevenAndOut).1) = 1 := by decide +kernel
  exact ⟨_, _, hrun, hend, hreg, hlost.trans hone⟩

end Aesd.Driver
