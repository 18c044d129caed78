import CaenDaq.BoardInfo

/-!
# The CAEN board behind its driver

`CaenDigitizer` and the part of the vendored driver that it rests on: which calls set
the error code, which of them drop the connection. What the hardware answers is not
known, so every function takes the answers as a sequence, the `n`-th contact with the
outside receiving the `n`-th of them. The calls made so far are kept with their answers.
-/

namespace CaenDaq

/-- A contact of the driver with the board, the library or a configuration file. -/
inductive Contact
  | openDigitizer | closeDigitizer | getInfo | getChannelEnableMask
  | readRegister (address : ℕ)
  | writeRegister (address : ℕ) (value : Word)
  | loadDump | configureFromFile
  | mallocReadoutBuffer | freeReadoutBuffer
  | clearData | swStartAcquisition | swStopAcquisition | sendSWTrigger | readData
  deriving DecidableEq, Repr

/-- The answer to a call: its error code, a register value or a size, whether the
readout buffer pointer is set, whether a call of many cycles lost the link in one of
them, whether a call that reports an error has opened the board all the same, and the
register dump that was found in the configuration file. -/
structure Reply where
  code : ℤ := 0
  value : Word := 0
  buffer : Bool := true
  linkLost : Bool := false
  opened : Bool := false
  dump : Option (List (ℕ × Word)) := none
  deriving DecidableEq, Repr

structure CaenDigitizer where
  configPath : Bool := false
  present : Bool := false
  isActive : Bool := false
  readoutBuffer : Bool := false
  bufferSize : ℕ := 0
  errcode : ℤ := 0
  info : BoardInfo := {}
  configured : Bool := false
  running : Bool := false
  calls : List (Contact × Reply) := []
  deriving DecidableEq

namespace CaenDigitizer

def kRegBoardConfiguration : ℕ := 0x8000
def kRegAcquisitionControl : ℕ := 0x8100
def kRegGlobalTriggerMask : ℕ := 0x810C
def kRegTrgOutEnableMask : ℕ := 0x8110
def kRegFrontPanelIOCtrl : ℕ := 0x811C
def kRegRunDelay : ℕ := 0x8170
def ADD_VME_BDID : ℕ := 0xEF08

def configFileNotFound : ℤ := -60

/-- Error codes on which the driver drops the connection. -/
def dropsConnection (error : ℤ) : Bool := error = -1 || error = -5 || error = -18 || error = -26

def connected (d : CaenDigitizer) : Bool := d.present && d.isActive

def startMode (d : CaenDigitizer) : ℕ := d.info.acquisitionControl.toNat &&& 0x3

def synchronised (d : CaenDigitizer) : Bool := d.startMode ≠ kStartModeSW

def clearError (d : CaenDigitizer) : CaenDigitizer := { d with errcode := 0 }

def emitError (error : ℤ) (d : CaenDigitizer) : CaenDigitizer :=
  { d with errcode := error, isActive := d.isActive && !dropsConnection error }

variable (world : ℕ → Reply)

def contact (c : Contact) (d : CaenDigitizer) : Reply × CaenDigitizer :=
  let r := world d.calls.length
  (r, { d with calls := d.calls ++ [(c, r)] })

/-- A driver function that makes one call and reports its error, if any. -/
def drive (c : Contact) (d : CaenDigitizer) : Reply × CaenDigitizer :=
  let r := contact world c d
  (r.1, if r.1.code ≠ 0 then emitError r.1.code r.2 else r.2)

/-- `Activate` of the driver: opens the board unless it is open already. What it does with
the open board, from `GetInfo` to `Reset`, counts as one contact with the opening: an error
there is reported, but the board is open. -/
def driverActivate (d : CaenDigitizer) : CaenDigitizer :=
  if d.isActive then emitError 0 d
  else
    let r := contact world .openDigitizer d
    emitError r.1.code { r.2 with isActive := r.1.code = 0 || r.1.opened }

def driverDeactivate (d : CaenDigitizer) : CaenDigitizer :=
  (drive world .closeDigitizer { d with isActive := false }).2

def setRegisterSpecificBits (address lower upper value : ℕ) (d : CaenDigitizer) : CaenDigitizer :=
  let r := contact world (.readRegister address) d
  if r.1.code ≠ 0 then emitError r.1.code r.2
  else
    let mask := 2 ^ 32 - 1 - (2 ^ (upper + 1) - 2 ^ lower)
    (drive world (.writeRegister address (BitVec.ofNat 32 ((r.1.value.toNat &&& mask) +
      (value <<< lower)))) r.2).2

/-- `ConfigureFromFile` of the driver. It programs the board in many cycles, of which
any may lose the link; the last error is the one that is reported. -/
def driverConfigureFromFile (d : CaenDigitizer) : CaenDigitizer :=
  let r := drive world .configureFromFile d
  { r.2 with isActive := r.2.isActive && !r.1.linkLost }

/-- The register read-back of `refreshBoardInfo`: zero for a register that cannot be read. -/
def readReg (address : ℕ) (d : CaenDigitizer) : Word × CaenDigitizer :=
  let r := drive world (.readRegister address) (clearError d)
  if r.2.errcode ≠ 0 then (0, clearError r.2) else (r.1.value, r.2)

def refreshBoardInfo (d : CaenDigitizer) : CaenDigitizer :=
  if !d.present then d
  else
    let d := (drive world .getInfo d).2
    let id := drive world (.readRegister ADD_VME_BDID) d
    let mask := drive world .getChannelEnableMask id.2
    let acq := readReg world kRegAcquisitionControl mask.2
    let cfg := readReg world kRegBoardConfiguration acq.2
    let fpio := readReg world kRegFrontPanelIOCtrl cfg.2
    let gtm := readReg world kRegGlobalTriggerMask fpio.2
    let tom := readReg world kRegTrgOutEnableMask gtm.2
    let delay := readReg world kRegRunDelay tom.2
    { delay.2 with info := { delay.2.info with
        boardRegId := id.1.value.toNat &&& 0xF
        channelEnableMask := mask.1.value
        acquisitionControl := acq.1
        boardConfiguration := cfg.1
        frontPanelIOControl := fpio.1
        globalTriggerMask := gtm.1
        trgOutEnableMask := tom.1
        runDelay := delay.1 } }

def activate (d : CaenDigitizer) : Bool × CaenDigitizer :=
  let d := driverActivate world (clearError { d with present := true })
  if d.errcode ≠ 0 ∨ d.isActive = false then (false, d) else (true, refreshBoardInfo world d)

def openBoard (d : CaenDigitizer) : Bool × CaenDigitizer := activate world d

/-- The writes of a register dump; one that fails is skipped. -/
def writeDump (d : CaenDigitizer) (entries : List (ℕ × Word)) : CaenDigitizer :=
  entries.foldl (fun d e => clearError (drive world (.writeRegister e.1 e.2) (clearError d)).2) d

/-- `applyRegisterDump`: false if the file holds no dump. -/
def applyRegisterDump (d : CaenDigitizer) : Bool × CaenDigitizer :=
  let r := contact world .loadDump d
  match r.1.dump with
  | none => (false, r.2)
  | some entries => (true, writeDump world r.2 entries)

def applyConfigFile (d : CaenDigitizer) : Bool × CaenDigitizer :=
  if d.configPath then
    let r := applyRegisterDump world d
    if r.1 then (true, r.2)
    else
      let d := driverConfigureFromFile world (clearError r.2)
      (d.errcode ≠ configFileNotFound, d)
  else (true, d)

def allocate (d : CaenDigitizer) : Bool × CaenDigitizer :=
  let d := if d.readoutBuffer then
      { (drive world .freeReadoutBuffer d).2 with readoutBuffer := false, bufferSize := 0 }
    else d
  let r := drive world .mallocReadoutBuffer (clearError d)
  let d := { r.2 with readoutBuffer := r.1.buffer, bufferSize := r.1.value.toNat }
  (d.errcode = 0 && d.readoutBuffer, d)

def applyConfig (d : CaenDigitizer) : Bool × CaenDigitizer :=
  if !d.present then (false, d)
  else
    let r := applyConfigFile world d
    if r.1 then allocate world r.2 else (false, r.2)

def configure (d : CaenDigitizer) : Bool × CaenDigitizer :=
  let r := applyConfig world d
  if r.1 then (true, { refreshBoardInfo world r.2 with configured := true }) else (false, r.2)

def driverStart (d : CaenDigitizer) : CaenDigitizer :=
  (drive world .swStartAcquisition (drive world .clearData (clearError d)).2).2

def start (d : CaenDigitizer) : Bool × CaenDigitizer :=
  if !d.present then (false, d)
  else
    let d := driverStart world d
    if d.errcode ≠ 0 then (false, d) else (true, { d with running := true })

def arm (d : CaenDigitizer) : Bool × CaenDigitizer :=
  if !d.present then (false, d)
  else
    let d := setRegisterSpecificBits world kRegAcquisitionControl 2 2 1
      (drive world .clearData (clearError d)).2
    if d.errcode ≠ 0 then (false, d) else (true, { d with running := true })

def sendSWTrigger (d : CaenDigitizer) : Bool × CaenDigitizer :=
  if !d.present then (false, d)
  else
    let d := (drive world .sendSWTrigger (clearError d)).2
    (d.errcode = 0, d)

/-- A board that was acquiring is started again, or armed again if it is synchronised. -/
def resume (d : CaenDigitizer) : Bool × CaenDigitizer :=
  if d.running then
    if d.synchronised then arm world { d with running := false }
    else
      let d := driverStart world d
      (d.errcode = 0, d)
  else (true, d)

def release (d : CaenDigitizer) : CaenDigitizer :=
  driverDeactivate world (if d.readoutBuffer then
    { (drive world .freeReadoutBuffer d).2 with readoutBuffer := false } else d)

def reconnect (d : CaenDigitizer) : Bool × CaenDigitizer :=
  let r := activate world (if d.present then release world d else d)
  if r.1 then
    let s := applyConfig world r.2
    if s.1 then resume world (refreshBoardInfo world s.2) else (false, s.2)
  else (false, r.2)

/-- `read`: the number of bytes in the buffer, or nothing on failure. -/
def read (d : CaenDigitizer) : Option ℕ × CaenDigitizer :=
  if !d.present || !d.readoutBuffer then (none, d)
  else
    let r := if d.connected then (true, d) else reconnect world d
    if r.1 then
      let s := drive world .readData { clearError r.2 with bufferSize := 0 }
      let d : CaenDigitizer := { s.2 with bufferSize := s.1.value.toNat }
      if d.errcode ≠ 0 then (none, d) else (some d.bufferSize, d)
    else (none, r.2)

def writeRegister (address : ℕ) (value : Word) (d : CaenDigitizer) : Bool × CaenDigitizer :=
  if !d.present || !d.connected then (false, d)
  else
    let d := (drive world (.writeRegister address value) (clearError d)).2
    if d.errcode ≠ 0 then (false, clearError d) else (true, d)

def readRegister (address : ℕ) (d : CaenDigitizer) : Option Word × CaenDigitizer :=
  if !d.present || !d.connected then (none, d)
  else
    let r := drive world (.readRegister address) (clearError d)
    if r.2.errcode ≠ 0 then (none, clearError r.2) else (some r.1.value, r.2)

def stop (d : CaenDigitizer) : Bool × CaenDigitizer :=
  if !d.present then (false, d)
  else
    let d := (drive world .swStopAcquisition (clearError { d with running := false })).2
    (d.errcode = 0, d)

def close (d : CaenDigitizer) : CaenDigitizer :=
  if !d.present then d
  else
    let d := if d.running then (stop world d).2 else d
    let d := if d.readoutBuffer then
        { (drive world .freeReadoutBuffer d).2 with readoutBuffer := false, bufferSize := 0 }
      else d
    { driverDeactivate world d with present := false, isActive := false }

/-- A call that neither opens the board, programs it from its file nor allocates. -/
def plain : Contact → Bool
  | .openDigitizer | .configureFromFile | .mallocReadoutBuffer => false
  | _ => true

/-- A relation between the states before and after, kept by plain calls. -/
structure Frame (R : CaenDigitizer → CaenDigitizer → Prop) : Prop where
  refl : ∀ d, R d d
  trans : ∀ d₁ d₂ d₃, R d₁ d₂ → R d₂ d₃ → R d₁ d₃
  cleared : ∀ d, R d (clearError d)
  informed : ∀ d info, R d { d with info := info }
  driven : ∀ c d, plain c = true → R d (drive world c d).2

namespace Frame

variable {world} {R : CaenDigitizer → CaenDigitizer → Prop} (h : Frame world R)

include h

theorem readReg (address : ℕ) (d : CaenDigitizer) : R d (readReg world address d).2 := by
  have hread := h.trans _ _ _ (h.cleared d)
    (h.driven (.readRegister address) (clearError d) rfl)
  simp only [CaenDigitizer.readReg]
  split
  · exact h.trans _ _ _ hread (h.cleared _)
  · exact hread

theorem refreshBoardInfo (d : CaenDigitizer) : R d (refreshBoardInfo world d) := by
  unfold CaenDigitizer.refreshBoardInfo
  split
  · exact h.refl d
  · refine h.trans _ _ _ (h.driven .getInfo _ rfl) ?_
    refine h.trans _ _ _ (h.driven (.readRegister ADD_VME_BDID) _ rfl) ?_
    refine h.trans _ _ _ (h.driven .getChannelEnableMask _ rfl) ?_
    refine h.trans _ _ _ (h.readReg kRegAcquisitionControl _) ?_
    refine h.trans _ _ _ (h.readReg kRegBoardConfiguration _) ?_
    refine h.trans _ _ _ (h.readReg kRegFrontPanelIOCtrl _) ?_
    refine h.trans _ _ _ (h.readReg kRegGlobalTriggerMask _) ?_
    refine h.trans _ _ _ (h.readReg kRegTrgOutEnableMask _) ?_
    exact h.trans _ _ _ (h.readReg kRegRunDelay _) (h.informed _ _)

theorem writeDump (entries : List (ℕ × Word)) (d : CaenDigitizer) :
    R d (writeDump world d entries) := by
  unfold CaenDigitizer.writeDump
  induction entries generalizing d with
  | nil => exact h.refl d
  | cons e entries ih =>
    have hwrite := h.trans _ _ _ (h.cleared d) (h.driven (.writeRegister e.1 e.2) _ rfl)
    exact h.trans _ _ _ (h.trans _ _ _ hwrite (h.cleared _)) (ih _)

theorem driverStart (d : CaenDigitizer) : R d (driverStart world d) :=
  h.trans _ _ _ (h.cleared d) (h.trans _ _ _ (h.driven .clearData _ rfl)
    (h.driven .swStartAcquisition _ rfl))

end Frame

end CaenDigitizer
end CaenDaq
