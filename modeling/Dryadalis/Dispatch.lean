import Dryadalis.Eval

/-!
# The dispatcher

A dispatch takes down the two hooks of the block that has ended, emulates its last
instruction to find the next block, and puts the hooks up again around that block:
the dump hook over its control-flow instruction, and the restore hook in front of
its first instruction.

The order is the one of the source.  `instrument_request` writes the dump hook
before it reads the bytes under the restore hook, and `_dispatcher` takes the
restore hook down first.  The two backups are only right because the two ranges do
not meet.

`dispatcherWith` is the dispatcher with its two inner computations as parameters:
how the next block is found, and how far away its last instruction is.  What it
does to the hooks does not depend on either.  `dispatcher` is the source's.
-/

namespace Dryadalis

open ByteMem Exec

section Dispatcher

variable (k : Kernel) (cs : Capstone)

/-! ## Putting a hook up and taking it down -/

/-- A result of the memory functions that is fatal when there is none. -/
def orFatal (step : Space → Option Space) : Eng Unit := do
  let e ← get
  match step e.space with
  | none => fatalDump
  | some m => modify fun e => { e with space := m }

/-- The first part of `write_hook`: map the pages of the hook that are not there. -/
def mapHook (which : Which) : Eng Unit := do
  let e ← get
  let h := e.hook which
  if !isMapped (pageAlign h.jmp) then
    orFatal fun m => (mapPage k m (pageAlign h.jmp) ⟨true, false, true⟩).toOption
    modify fun e => e.setHook which { h with toUnmap := pageAlign h.jmp }
  else if !isMapped (h.jmp + h.length) then
    orFatal fun m => (mapPage k m (h.jmp + h.length) ⟨true, false, true⟩).toOption
    modify fun e => e.setHook which { h with toUnmap := pageAlign (h.jmp + h.length) }
  else
    pure ()

/-- The last part of `write_hook`: `make_executable`, when the page is not. -/
def makeExecutable (addr : Word) : Eng Unit :=
  match getProt addr with
  | some prot =>
    if prot.exec then pure ()
    else orFatal fun m => k.mprotectPage m (pageAlign addr) ⟨true, false, true⟩
  | none => pure ()

/-- `write_hook`: save the bytes under the hook and write its code. -/
def writeHook (which : Which) : Eng Int := do
  mapHook k which
  let h := (← get).hook which
  let (ret, buf) ← readMem k h.origBytes h.jmp h.length
  modify fun e => e.setHook which { h with origBytes := buf }
  if ret = -1 then
    fatalDump
  if (← writeMem k h.jmp h.code h.length) = -1 then
    fatalDump
  makeExecutable k h.jmp
  return 0

/-- `restore_bytes` -/
def restoreBytes (which : Which) : Eng Unit := do
  let h := (← get).hook which
  if !isMapped h.jmp then
    fatalDump
  if (← writeMem k h.jmp h.origBytes h.length) = -1 then
    fatalDump

/-- Take a hook down: `restore_bytes`, and the page that was mapped for the hook. -/
def takeDown (which : Which) : Eng Unit := do
  restoreBytes k which
  let h := (← get).hook which
  if h.toUnmap ≠ 0 then
    orFatal fun m => k.munmapPage m (pageAlign h.toUnmap)
  modify fun e => e.setHook which { e.hook which with toUnmap := 0 }

/-! ## Instrumenting a block -/

/-- `_instrument_bbl` -/
def instrumentBbl (scan : Word → Eng Int) (base : Word) : Eng Word := do
  let off ← scan base
  if off = -1 then
    fatalDump
  let addr := base + BitVec.ofInt 64 off
  modify fun e => { e with dump := { e.dump with jmp := addr } }
  let len ← insnLen k cs addr
  modify fun e => { e with lengthCflow := len }
  if (← writeHook k .dump) ≠ 0 then
    fatalDump
  return BitVec.ofInt 64 off

/-- `instrument_request` -/
def instrumentRequest (scan : Word → Eng Int) (base : Word) : Eng Int := do
  let off ← instrumentBbl k cs scan base
  modify fun e => { e with currHook := base + off }
  modify fun e => { e with
    restore := { e.restore with jmp := base - e.restore.length }
    currHook := e.dump.jmp }
  if (← writeHook k .restore) = -1 then
    fatalDump
  return 0

/-! ## The dispatcher -/

/-- `br_emulation` -/
def brEmulation (addr : Word) : Eng Word := do
  let target ← evalTarget k cs addr
  if target = minusOne then
    fatalDump
  return target

/-- `_get_bbl_base` -/
def getBblBase : Eng Word := do
  let e ← get
  brEmulation k cs e.currHook

/-- The start of `_dispatcher`: cache the bases of the guest and install those of
the host. -/
def enterHost : Eng Unit := do
  match ← saveFsGs k with
  | none => fatalDump
  | some (fs, gs) =>
    modify fun e => { e with instrumentedFs := fs, instrumentedGs := gs }
    let e ← get
    if (← setFsGs k e.hostFs e.hostGs) = -1 then
      fatalDump

/-- `continue_exec`: install the bases of the guest and jump to the restore stub. -/
def continueExec : Eng Unit := do
  let e ← get
  if (← setFsGs k e.instrumentedFs e.instrumentedGs) ≠ 0 then
    emit .output
  emit .resume

/-- The user callback, which is given the descriptor to look at. -/
def userCallback : Eng Unit := do
  let e ← get
  if e.takeCallback then
    emit .callback
  else
    pure ()

/-- Take both hooks down, the restore hook first. -/
def takeDownHooks : Eng Unit := do
  let e ← get
  if e.restore.jmp ≠ 0 then
    takeDown k .restore
  else
    modify fun e => { e with restore := { e.restore with toUnmap := 0 } }
  takeDown k .dump

/-- Put the hooks up around the next block and set the address to go on at. -/
def instrumentAt (scan : Word → Eng Int) (base : Word) : Eng Unit := do
  if base = minusOne then
    fatalDump
  if (← instrumentRequest k cs scan base) = -1 then
    fatalDump
  modify fun e => { e with state := { e.state with rip := base - e.restore.length } }

/-- The work of `_dispatcher` between the two switches of the bases. -/
def moveHooks (getBase : Eng Word) (scan : Word → Eng Int) : Eng Unit := do
  takeDownHooks k
  let base ← getBase
  instrumentAt k cs scan base

/-- `_dispatcher`, for any way to find the next block and its last instruction. -/
def dispatcherWith (getBase : Eng Word) (scan : Word → Eng Int) : Eng Unit := do
  enterHost k
  userCallback
  moveHooks k cs getBase scan
  continueExec k

/-- `_dispatcher` -/
def dispatcher : Eng Unit :=
  dispatcherWith k cs (getBblBase k cs) (fun base => opcodesCflow k cs base true)

/-- The end of `instrument`: save the bases of the host, and install those of the
guest if there are any yet. -/
def leaveHost : Eng Unit := do
  match ← saveFsGs k with
  | none => fatalDump
  | some (fs, gs) =>
    modify fun e => { e with hostFs := fs, hostGs := gs }
    let e ← get
    if e.instrumentedFs ≠ 0 then
      if (← setFsGs k e.instrumentedFs e.instrumentedGs) = -1 then
        fatalDump

/-- `instrument`, from the first block on, up to the jump to the entry of the guest. -/
def instrument (entry : Word) : Eng Unit := do
  modify fun e => { e with takeCallback := true }
  if (← instrumentRequest k cs (fun base => opcodesCflow k cs base true) entry) = -1 then
    fatalDump
  modify fun e => { e with state := { e.state with rip := entry } }
  leaveHost k

end Dispatcher

/-! ## The switches of the bases -/

section Switches

variable {k : Kernel} (hk : k.SetsBases)

include hk

theorem enterHost_eq (e : Engine) :
    enterHost k e = .ok ()
      { e with
        instrumentedFs := e.fs
        instrumentedGs := e.gs
        fs := e.hostFs
        gs := e.hostGs } := by
  rw [enterHost, bind_of_ok (saveFsGs_eq hk e)]
  simp only
  rw [bind_of_ok (modify_apply _ _), bind_of_ok (get_apply _),
    bind_of_ok (setFsGs_eq hk _ _)]
  rfl

theorem continueExec_eq (e : Engine) :
    continueExec k e = .ok ()
      { e with
        fs := e.instrumentedFs
        gs := e.instrumentedGs
        trace := .resume e.instrumentedFs e.instrumentedGs :: e.trace } := by
  rw [continueExec, bind_of_ok (get_apply e),
    bind_of_ok (setFsGs_eq hk _ _)]
  rfl

theorem leaveHost_eq {e : Engine} (hcache : e.instrumentedFs = 0) :
    leaveHost k e = .ok () { e with hostFs := e.fs, hostGs := e.gs } := by
  rw [leaveHost, bind_of_ok (saveFsGs_eq hk e)]
  simp only
  rw [bind_of_ok (modify_apply _ _), bind_of_ok (get_apply _), if_neg (by simpa using hcache)]
  rfl

end Switches

end Dryadalis
