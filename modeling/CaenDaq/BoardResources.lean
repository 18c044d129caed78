import CaenDaq.Monitor
import CaenDaq.Reconnect

/-!
# What a board holds of the library

The readout buffer and the handle of a board belong to the library. What is done with them is
followed through all that can happen to a board between its construction and its end,
reconnects and failed reconnects included, whatever the library answers.
-/

namespace CaenDaq
namespace BoardResources

open CaenDigitizer Reconnect

/-- What the library has given out for a board. -/
structure Resources where
  buffer : Bool := false
  handles : ℕ := 0
  deriving DecidableEq, Repr

/-- A buffer is handed out once, filled and freed while it is there, and all of it while the
board is open. A handle is not closed before the buffer is freed. -/
def library : Monitor Resources (Contact × Reply) where
  next s c :=
    match c with
    | (.openDigitizer, r) =>
      if r.code = 0 || r.opened then { s with handles := s.handles + 1 } else s
    | (.closeDigitizer, _) => { s with handles := s.handles - 1 }
    | (.mallocReadoutBuffer, r) => { s with buffer := r.buffer }
    | (.freeReadoutBuffer, _) => { s with buffer := false }
    | _ => s
  Permits s c :=
    match c.1 with
    | .closeDigitizer => s.buffer = false
    | .mallocReadoutBuffer => s.buffer = false ∧ 0 < s.handles
    | .freeReadoutBuffer | .readData => s.buffer = true ∧ 0 < s.handles
    | _ => True

structure Owned (s : Resources) (d : CaenDigitizer) : Prop where
  accepts : library.Accepts {} d.calls
  state : library.after {} d.calls = s
  buffer : d.readoutBuffer = s.buffer
  handle : d.readoutBuffer = true ∨ d.isActive = true → 0 < s.handles
  absent : d.present = false → d.readoutBuffer = false ∧ d.isActive = false

/-- A call that is all the same to buffer and handle. -/
def idle : Contact → Bool
  | .openDigitizer | .closeDigitizer => false
  | .mallocReadoutBuffer | .freeReadoutBuffer | .readData => false
  | _ => true

theorem ignores_idle {c : Contact} (h : idle c = true) (r : Reply) : library.Ignores (c, r) := by
  cases c <;> first | exact fun _ => ⟨trivial, rfl⟩ | cases h

/-- Steps that make such calls only, and at most lose the connection. -/
structure Passive (d d' : CaenDigitizer) : Prop where
  calls : ∃ cs, d'.calls = d.calls ++ cs ∧ ∀ c ∈ cs, library.Ignores c
  present : d'.present = d.present
  buffer : d'.readoutBuffer = d.readoutBuffer
  active : d'.isActive = true → d.isActive = true

theorem Passive.of_calls {d d' : CaenDigitizer} (hcalls : d'.calls = d.calls)
    (hpresent : d'.present = d.present) (hbuffer : d'.readoutBuffer = d.readoutBuffer)
    (hactive : d'.isActive = true → d.isActive = true) : Passive d d' :=
  ⟨⟨[], by rw [hcalls, List.append_nil], fun _ h => absurd h List.not_mem_nil⟩, hpresent, hbuffer,
    hactive⟩

theorem Passive.refl (d : CaenDigitizer) : Passive d d := .of_calls rfl rfl rfl id

theorem Passive.trans {d₁ d₂ d₃ : CaenDigitizer} (h : Passive d₁ d₂) (h' : Passive d₂ d₃) :
    Passive d₁ d₃ := by
  obtain ⟨cs, hcalls, hcs⟩ := h.calls
  obtain ⟨cs', hcalls', hcs'⟩ := h'.calls
  refine ⟨⟨cs ++ cs', ?_, List.forall_mem_append.mpr ⟨hcs, hcs'⟩⟩, h'.present.trans h.present,
    h'.buffer.trans h.buffer, fun hactive => h.active (h'.active hactive)⟩
  rw [hcalls', hcalls, List.append_assoc]

theorem Owned.passive {s : Resources} {d d' : CaenDigitizer} (h : Owned s d) (hp : Passive d d') :
    Owned s d' := by
  obtain ⟨cs, hcalls, hcs⟩ := hp.calls
  obtain ⟨haccepts, hafter⟩ := Monitor.accepts_ignored hcs s
  refine ⟨?_, ?_, hp.buffer.trans h.buffer, fun hheld => h.handle ?_, fun habsent => ?_⟩
  · rw [hcalls, Monitor.accepts_append, h.state]
    exact ⟨h.accepts, haccepts⟩
  · rw [hcalls, Monitor.after_append, h.state, hafter]
  · exact hheld.imp (fun hb => hp.buffer.symm.trans hb) hp.active
  · obtain ⟨hbuffer, hactive⟩ := h.absent (hp.present.symm.trans habsent)
    refine ⟨hp.buffer.trans hbuffer, ?_⟩
    by_contra hno
    rw [hp.active (Bool.not_eq_false _ ▸ hno)] at hactive
    cases hactive

theorem cleared (d : CaenDigitizer) : Passive d (clearError d) := .of_calls rfl rfl rfl id

theorem informed (d : CaenDigitizer) (info : BoardInfo) : Passive d { d with info := info } :=
  .of_calls rfl rfl rfl id

theorem marked (d : CaenDigitizer) (running : Bool) : Passive d { d with running := running } :=
  .of_calls rfl rfl rfl id

variable (world : ℕ → Reply)

theorem drive_active (c : Contact) (d : CaenDigitizer) :
    (drive world c d).2.isActive = true → d.isActive = true := by
  intro hactive
  by_contra hno
  rw [drive_inactive world c (Bool.not_eq_true _ ▸ hno)] at hactive
  cases hactive

theorem contact_passive (c : Contact) (hc : idle c = true) (d : CaenDigitizer) :
    Passive d (contact world c d).2 :=
  ⟨⟨_, rfl, List.forall_mem_singleton.mpr (ignores_idle hc _)⟩, rfl, rfl, id⟩

theorem drive_passive (c : Contact) (hc : idle c = true) (d : CaenDigitizer) :
    Passive d (drive world c d).2 := by
  obtain ⟨hcalls, hpresent, hbuffer, _⟩ := drive_fields world c d
  exact ⟨⟨_, hcalls, List.forall_mem_singleton.mpr (ignores_idle hc _)⟩, hpresent, hbuffer,
    drive_active world c d⟩

theorem emitError_passive (error : ℤ) (d : CaenDigitizer) : Passive d (emitError error d) :=
  .of_calls rfl rfl rfl fun hactive => (Bool.and_eq_true_iff.mp hactive).1

theorem readReg_passive (address : ℕ) (d : CaenDigitizer) :
    Passive d (readReg world address d).2 := by
  have hread := (cleared d).trans (drive_passive world (.readRegister address) rfl _)
  unfold readReg
  dsimp only
  split
  · exact hread.trans (cleared _)
  · exact hread

theorem refreshBoardInfo_passive (d : CaenDigitizer) : Passive d (refreshBoardInfo world d) := by
  unfold refreshBoardInfo
  split
  · exact Passive.refl d
  · refine (drive_passive world .getInfo rfl _).trans ?_
    refine (drive_passive world (.readRegister ADD_VME_BDID) rfl _).trans ?_
    refine (drive_passive world .getChannelEnableMask rfl _).trans ?_
    refine (readReg_passive world kRegAcquisitionControl _).trans ?_
    refine (readReg_passive world kRegBoardConfiguration _).trans ?_
    refine (readReg_passive world kRegFrontPanelIOCtrl _).trans ?_
    refine (readReg_passive world kRegGlobalTriggerMask _).trans ?_
    refine (readReg_passive world kRegTrgOutEnableMask _).trans ?_
    exact (readReg_passive world kRegRunDelay _).trans (informed _ _)

theorem writeDump_passive (entries : List (ℕ × Word)) (d : CaenDigitizer) :
    Passive d (writeDump world d entries) := by
  unfold writeDump
  induction entries generalizing d with
  | nil => exact Passive.refl d
  | cons e entries ih =>
    have hwrite := (cleared d).trans (drive_passive world (.writeRegister e.1 e.2) rfl _)
    exact (hwrite.trans (cleared _)).trans (ih _)

theorem applyConfigFile_passive (d : CaenDigitizer) : Passive d (applyConfigFile world d).2 := by
  have hload : Passive d (contact world .loadDump d).2 :=
    contact_passive world .loadDump rfl d
  have hdriver : ∀ d, Passive d (driverConfigureFromFile world d) := fun d =>
    (drive_passive world .configureFromFile rfl d).trans
      (.of_calls rfl rfl rfl fun hactive => (Bool.and_eq_true_iff.mp hactive).1)
  unfold applyConfigFile
  split
  · unfold applyRegisterDump
    cases hdump : (contact world .loadDump d).1.dump with
    | none =>
      simp only [hdump, Bool.false_eq_true, if_false]
      exact hload.trans ((cleared _).trans (hdriver _))
    | some entries =>
      simp only [hdump, if_true]
      exact hload.trans (writeDump_passive world entries _)
  · exact Passive.refl d

theorem setRegisterSpecificBits_passive (address lower upper value : ℕ) (d : CaenDigitizer) :
    Passive d (setRegisterSpecificBits world address lower upper value d) := by
  have hread := contact_passive world (.readRegister address) rfl d
  unfold setRegisterSpecificBits
  dsimp only
  split
  · exact hread.trans (emitError_passive _ _)
  · exact hread.trans (drive_passive world (.writeRegister _ _) rfl _)

theorem driverStart_passive (d : CaenDigitizer) : Passive d (driverStart world d) :=
  (cleared d).trans ((drive_passive world .clearData rfl _).trans
    (drive_passive world .swStartAcquisition rfl _))

theorem start_passive (d : CaenDigitizer) : Passive d (start world d).2 := by
  unfold start
  split
  · exact Passive.refl d
  · dsimp only
    split
    · exact driverStart_passive world d
    · exact (driverStart_passive world d).trans (marked _ true)

theorem arm_passive (d : CaenDigitizer) : Passive d (arm world d).2 := by
  have hbits := (cleared d).trans
    ((drive_passive world .clearData rfl _).trans
      (setRegisterSpecificBits_passive world kRegAcquisitionControl 2 2 1 _))
  unfold arm
  split
  · exact Passive.refl d
  · dsimp only
    split
    · exact hbits
    · exact hbits.trans (marked _ true)

theorem resume_passive (d : CaenDigitizer) : Passive d (resume world d).2 := by
  unfold resume
  split
  · split
    · exact (marked d false).trans (arm_passive world _)
    · exact driverStart_passive world d
  · exact Passive.refl d

theorem sendSWTrigger_passive (d : CaenDigitizer) : Passive d (sendSWTrigger world d).2 := by
  unfold sendSWTrigger
  split
  · exact Passive.refl d
  · exact (cleared d).trans (drive_passive world .sendSWTrigger rfl _)

theorem writeRegister_passive (address : ℕ) (value : Word) (d : CaenDigitizer) :
    Passive d (writeRegister world address value d).2 := by
  have hwrite := (cleared d).trans (drive_passive world (.writeRegister address value) rfl _)
  unfold writeRegister
  split
  · exact Passive.refl d
  · dsimp only
    split
    · exact hwrite.trans (cleared _)
    · exact hwrite

theorem readRegister_passive (address : ℕ) (d : CaenDigitizer) :
    Passive d (readRegister world address d).2 := by
  have hread := (cleared d).trans (drive_passive world (.readRegister address) rfl _)
  unfold readRegister
  split
  · exact Passive.refl d
  · dsimp only
    split
    · exact hread.trans (cleared _)
    · exact hread

theorem stop_passive (d : CaenDigitizer) : Passive d (stop world d).2 := by
  unfold stop
  split
  · exact Passive.refl d
  · exact (marked d false).trans ((cleared _).trans
      (drive_passive world .swStopAcquisition rfl _))

theorem Owned.call {s : Resources} {d : CaenDigitizer} (h : Owned s d) {cs : List (Contact × Reply)}
    {c : Contact × Reply} (hcalls : cs = d.calls ++ [c]) (hc : library.Permits s c) :
    library.Accepts {} cs ∧ library.after {} cs = library.next s c := by
  rw [hcalls, Monitor.accepts_append, Monitor.after_append, h.state]
  exact ⟨⟨h.accepts, hc, trivial⟩, rfl⟩

theorem driverActivate_owned {s : Resources} {d : CaenDigitizer} (h : Owned s d)
    (hpresent : d.present = true) :
    ∃ s', Owned s' (driverActivate world d) ∧ s'.buffer = s.buffer ∧
      s'.handles ≤ s.handles + 1 ∧ (d.isActive = true → s' = s) := by
  cases hactive : d.isActive with
  | true =>
    rw [driverActivate, if_pos hactive]
    exact ⟨s, h.passive (emitError_passive 0 d), rfl, Nat.le_succ _, fun _ => rfl⟩
  | false =>
    have hstays : (driverActivate world d).present = false → False := by
      rw [driverActivate, hactive]
      exact fun hno => Bool.noConfusion (hpresent.symm.trans hno)
    have hcalls : (driverActivate world d).calls =
        d.calls ++ [(.openDigitizer, world d.calls.length)] := by
      rw [driverActivate, hactive]
      rfl
    have hbuffer : (driverActivate world d).readoutBuffer = s.buffer := by
      rw [driverActivate, hactive]
      exact h.buffer
    obtain ⟨haccepts, hstate⟩ := h.call hcalls trivial
    cases hopen : decide ((world d.calls.length).code = 0) || (world d.calls.length).opened with
    | true =>
      refine ⟨{ s with handles := s.handles + 1 }, ⟨haccepts, hstate.trans (if_pos hopen), hbuffer,
        fun _ => Nat.succ_pos _, fun hno => (hstays hno).elim⟩, rfl, Nat.le_refl _,
        fun hno => absurd hno Bool.false_ne_true⟩
    | false =>
      have hdead : (driverActivate world d).isActive = false := by
        rw [driverActivate, hactive]
        exact (congrArg (· && _) hopen).trans (Bool.false_and _)
      have hsame : library.next s (.openDigitizer, world d.calls.length) = s :=
        if_neg (ne_true_of_eq_false hopen)
      refine ⟨s, ⟨haccepts, hstate.trans hsame, hbuffer, fun hheld => h.handle (.inl ?_),
        fun hno => (hstays hno).elim⟩, rfl, Nat.le_succ _, fun _ => rfl⟩
      rcases hheld with hheld | hno
      · exact h.buffer.trans (hbuffer.symm.trans hheld)
      · rw [hdead] at hno
        cases hno

theorem activate_owned {s : Resources} {d : CaenDigitizer} (h : Owned s d) :
    ∃ s', Owned s' (activate world d).2 ∧ s'.buffer = s.buffer ∧ s'.handles ≤ s.handles + 1 ∧
      (d.isActive = true → s' = s) ∧ ((activate world d).1 = true → 0 < s'.handles) ∧
      (activate world d).2.present = true := by
  have hmarked : Owned s (clearError { d with present := true }) :=
    ⟨h.accepts, h.state, h.buffer, h.handle, fun hno => Bool.noConfusion hno⟩
  obtain ⟨s', hs', hbuffer, hhandles, hsame⟩ := driverActivate_owned world hmarked rfl
  have hstays : (driverActivate world (clearError { d with present := true })).present = true := by
    unfold driverActivate
    split <;> rfl
  unfold activate
  dsimp only
  split
  · exact ⟨s', hs', hbuffer, hhandles, hsame, fun hno => absurd hno Bool.false_ne_true, hstays⟩
  · next hok =>
    have hactive := (not_or.mp hok).2
    have hrefresh := refreshBoardInfo_passive world
      (driverActivate world (clearError { d with present := true }))
    exact ⟨s', hs'.passive hrefresh, hbuffer, hhandles, hsame,
      fun _ => hs'.handle (.inr (Bool.not_eq_false _ ▸ hactive)), hrefresh.present.trans hstays⟩

theorem free_owned {s : Resources} {d : CaenDigitizer} (h : Owned s d)
    (hbuffer : d.readoutBuffer = true) (size : ℕ) :
    Owned { s with buffer := false } { (drive world .freeReadoutBuffer d).2 with
      readoutBuffer := false, bufferSize := size } := by
  obtain ⟨hcalls, hpresent, _⟩ := drive_fields world .freeReadoutBuffer d
  have hhandle := h.handle (.inl hbuffer)
  obtain ⟨haccepts, hstate⟩ := h.call hcalls ⟨h.buffer.symm.trans hbuffer, hhandle⟩
  refine ⟨haccepts, hstate, rfl, fun _ => hhandle, fun hno => ?_⟩
  rw [(h.absent (hpresent.symm.trans hno)).1] at hbuffer
  cases hbuffer

theorem freed_owned {s : Resources} {d : CaenDigitizer} (h : Owned s d) :
    Owned { s with buffer := false } (if d.readoutBuffer then
      { (drive world .freeReadoutBuffer d).2 with readoutBuffer := false, bufferSize := 0 }
    else d) := by
  split
  · next hbuffer => exact free_owned world h hbuffer 0
  · next hbuffer =>
    have hnone : s.buffer = false := by
      rw [← h.buffer]
      exact Bool.not_eq_true _ ▸ hbuffer
    rwa [← hnone]

theorem allocate_owned {s : Resources} {d : CaenDigitizer} (h : Owned s d)
    (hpresent : d.present = true) (hopen : 0 < s.handles) :
    ∃ s', Owned s' (allocate world d).2 ∧ s'.handles = s.handles ∧
      ((allocate world d).1 = true → s'.buffer = true) := by
  have hstays : (if d.readoutBuffer then
        { (drive world .freeReadoutBuffer d).2 with readoutBuffer := false, bufferSize := 0 }
      else d).present = true := by
    split
    · obtain ⟨_, hsame, _⟩ := drive_fields world .freeReadoutBuffer d
      exact hsame.trans hpresent
    · exact hpresent
  have hclean := (freed_owned world h).passive (cleared _)
  unfold allocate
  dsimp only
  generalize (if d.readoutBuffer then
      { (drive world .freeReadoutBuffer d).2 with readoutBuffer := false, bufferSize := 0 }
    else d) = d' at hstays hclean ⊢
  obtain ⟨hcalls, hkept, _⟩ := drive_fields world .mallocReadoutBuffer (clearError d')
  obtain ⟨haccepts, hstate⟩ := hclean.call hcalls ⟨rfl, hopen⟩
  refine ⟨_, ⟨haccepts, hstate, rfl, fun _ => hopen, fun hno => ?_⟩, rfl, fun hok => ?_⟩
  · exact Bool.noConfusion (hstays.symm.trans (hkept.symm.trans hno))
  · exact (Bool.and_eq_true_iff.mp hok).2

theorem applyConfig_owned {s : Resources} {d : CaenDigitizer} (h : Owned s d)
    (hopen : 0 < s.handles) :
    ∃ s', Owned s' (applyConfig world d).2 ∧ s'.handles = s.handles ∧
      ((applyConfig world d).1 = true → s'.buffer = true) ∧
      (applyConfig world d).2.present = d.present := by
  have hfile := applyConfigFile_passive world d
  unfold applyConfig
  split
  · exact ⟨s, h, rfl, fun hno => absurd hno Bool.false_ne_true, rfl⟩
  · next hpresent =>
    have hthere : d.present = true := by simpa using hpresent
    dsimp only
    split
    · obtain ⟨s', hs', hsame, hok⟩ :=
        allocate_owned world (h.passive hfile) (hfile.present.trans hthere) hopen
      exact ⟨s', hs', hsame, hok, (allocate_present world _).trans hfile.present⟩
    · exact ⟨s, h.passive hfile, rfl, fun hno => absurd hno Bool.false_ne_true, hfile.present⟩

theorem driverDeactivate_owned {s : Resources} {d : CaenDigitizer} (h : Owned s d)
    (hbuffer : s.buffer = false) :
    Owned { s with handles := s.handles - 1 } (driverDeactivate world d) ∧
      (driverDeactivate world d).isActive = false := by
  obtain ⟨hcalls, hpresent, hsame, _⟩ :=
    drive_fields world .closeDigitizer { d with isActive := false }
  have hdead : (driverDeactivate world d).isActive = false := drive_inactive world _ rfl
  have hnone : (driverDeactivate world d).readoutBuffer = false :=
    hsame.trans (h.buffer.trans hbuffer)
  obtain ⟨haccepts, hstate⟩ := h.call hcalls hbuffer
  refine ⟨⟨haccepts, hstate, hnone.trans hbuffer.symm, fun hheld => ?_, fun _ => ⟨hnone, hdead⟩⟩,
    hdead⟩
  rcases hheld with hheld | hheld
  · exact Bool.noConfusion (hnone.symm.trans hheld)
  · exact Bool.noConfusion (hdead.symm.trans hheld)

theorem release_owned {s : Resources} {d : CaenDigitizer} (h : Owned s d) :
    Owned { buffer := false, handles := s.handles - 1 } (release world d) ∧
      (release world d).isActive = false := by
  unfold release
  cases hbuffer : d.readoutBuffer with
  | true =>
    exact driverDeactivate_owned world (free_owned world h hbuffer
      (drive world .freeReadoutBuffer d).2.bufferSize) rfl
  | false =>
    have hnone : s.buffer = false := h.buffer.symm.trans hbuffer
    obtain ⟨hclosed, hdead⟩ := driverDeactivate_owned world h hnone
    rw [hnone] at hclosed
    exact ⟨hclosed, hdead⟩

theorem reconnect_owned {s : Resources} {d : CaenDigitizer} (h : Owned s d)
    (hpresent : d.present = true) :
    ∃ s', Owned s' (reconnect world d).2 ∧ s'.handles ≤ s.handles - 1 + 1 ∧
      ((reconnect world d).1 = true → s'.buffer = true ∧ 0 < s'.handles) ∧
      (reconnect world d).2.present = true := by
  obtain ⟨hreleased, _⟩ := release_owned world h
  obtain ⟨s₁, h₁, _, hhandles, _, hopened, hstays⟩ := activate_owned world hreleased
  unfold reconnect
  rw [if_pos hpresent]
  dsimp only
  split
  · next hactivated =>
    obtain ⟨s₂, h₂, hsame, hconfigured, hstill⟩ :=
      applyConfig_owned world h₁ (hopened hactivated)
    have hthere := hstill.trans hstays
    split
    · next hok =>
      have hresumed := (refreshBoardInfo_passive world
        (applyConfig world (activate world (release world d)).2).2).trans (resume_passive world _)
      exact ⟨s₂, h₂.passive hresumed, hsame.le.trans hhandles,
        fun _ => ⟨hconfigured hok, hsame ▸ hopened hactivated⟩, hresumed.present.trans hthere⟩
    · exact ⟨s₂, h₂, hsame.le.trans hhandles, fun hno => absurd hno Bool.false_ne_true, hthere⟩
  · exact ⟨s₁, h₁, hhandles, fun hno => absurd hno Bool.false_ne_true, hstays⟩

theorem read_owned {s : Resources} {d : CaenDigitizer} (h : Owned s d) :
    ∃ s', Owned s' (read world d).2 ∧ s'.handles ≤ max s.handles 1 ∧
      (read world d).2.present = d.present := by
  unfold CaenDigitizer.read
  split
  · exact ⟨s, h, Nat.le_max_left _ _, rfl⟩
  · next hready =>
    simp only [Bool.or_eq_true, Bool.not_eq_true', not_or, Bool.not_eq_false] at hready
    obtain ⟨hpresent, hbuffer⟩ := hready
    have hconnected : ∃ s', Owned s' (if d.connected then (true, d) else reconnect world d).2 ∧
        s'.handles ≤ max s.handles 1 ∧
        ((if d.connected then (true, d) else reconnect world d).1 = true →
          s'.buffer = true ∧ 0 < s'.handles) ∧
        (if d.connected then (true, d) else reconnect world d).2.present = d.present := by
      split
      · exact ⟨s, h, Nat.le_max_left _ _,
          fun _ => ⟨h.buffer.symm.trans hbuffer, h.handle (.inl hbuffer)⟩, rfl⟩
      · obtain ⟨s', hs', hhandles, hok, hstays⟩ := reconnect_owned world h hpresent
        exact ⟨s', hs', hhandles.trans (by omega), hok, hstays.trans hpresent.symm⟩
    obtain ⟨s', hs', hhandles, hok, hthere⟩ := hconnected
    generalize (if d.connected then (true, d) else reconnect world d) = r at hs' hok hthere ⊢
    dsimp only
    split
    · next hgo =>
      obtain ⟨hfilled, hopen⟩ := hok hgo
      have hzero : Owned s' { clearError r.2 with bufferSize := 0 } :=
        hs'.passive (.of_calls rfl rfl rfl id)
      obtain ⟨hcalls, hstays, hsame, _⟩ :=
        drive_fields world .readData { clearError r.2 with bufferSize := 0 }
      obtain ⟨haccepts, hstate⟩ := hzero.call hcalls ⟨hfilled, hopen⟩
      have hread : ∀ size, Owned s' { (drive world .readData
          { clearError r.2 with bufferSize := 0 }).2 with bufferSize := size } := fun size =>
        ⟨haccepts, hstate, hsame.trans hzero.buffer, fun _ => hopen, fun hno => by
          obtain ⟨hnone, _⟩ := hzero.absent (hstays.symm.trans hno)
          rw [hzero.buffer, hfilled] at hnone
          cases hnone⟩
      split
      · exact ⟨s', hread _, hhandles, hstays.trans hthere⟩
      · exact ⟨s', hread _, hhandles, hstays.trans hthere⟩
    · exact ⟨s', hs', hhandles, hthere⟩

def prepare (d : CaenDigitizer) : Bool × CaenDigitizer :=
  let r := openBoard world d
  if r.1 then configure world r.2 else (false, r.2)

/-- What a `BoardRunner` does with its board, and what is done with it online. -/
inductive Call
  | prepare
  | use (u : Use)
  | close
  deriving DecidableEq, Repr

def call (d : CaenDigitizer) : Call → CaenDigitizer
  | .prepare => (prepare world d).2
  | .use u => use world d u
  | .close => close world d

def lived (configPath : Bool) (calls : List Call) : CaenDigitizer :=
  calls.foldl (call world) { configPath := configPath }

/-- What the library has given out, by the calls that were made. -/
def held (d : CaenDigitizer) : Resources := library.after {} d.calls

/-- No board is prepared again before it is closed. -/
def Alternate : Bool → List Call → Prop
  | _, [] => True
  | opened, .prepare :: calls => opened = false ∧ Alternate true calls
  | _, .close :: calls => Alternate false calls
  | opened, .use _ :: calls => Alternate opened calls

theorem prepare_owned {s : Resources} {d : CaenDigitizer} (h : Owned s d) :
    ∃ s', Owned s' (prepare world d).2 ∧ s'.handles ≤ s.handles + 1 ∧
      (prepare world d).2.present = true := by
  obtain ⟨s₁, h₁, _, hhandles, _, hopened, hstays⟩ := activate_owned world h
  unfold prepare openBoard
  dsimp only
  split
  · next hok =>
    obtain ⟨s₂, h₂, hsame, _, hstill⟩ := applyConfig_owned world h₁ (hopened hok)
    have hbound : s₂.handles ≤ s.handles + 1 := hsame.le.trans hhandles
    have hthere := hstill.trans hstays
    unfold configure
    dsimp only
    split
    · have hdone : Passive (applyConfig world (activate world d).2).2
          { refreshBoardInfo world (applyConfig world (activate world d).2).2 with
            configured := true } :=
        (refreshBoardInfo_passive world _).trans (.of_calls rfl rfl rfl id)
      exact ⟨s₂, h₂.passive hdone, hbound, hdone.present.trans hthere⟩
    · exact ⟨s₂, h₂, hbound, hthere⟩
  · exact ⟨s₁, h₁, hhandles, hstays⟩

theorem use_owned {s : Resources} {d : CaenDigitizer} (h : Owned s d) (u : Use) :
    ∃ s', Owned s' (use world d u) ∧ s'.handles ≤ max s.handles 1 ∧
      (use world d u).present = d.present := by
  have hpassive : ∀ {d'}, Passive d d' →
      ∃ s', Owned s' d' ∧ s'.handles ≤ max s.handles 1 ∧ d'.present = d.present :=
    fun hp => ⟨s, h.passive hp, Nat.le_max_left _ _, hp.present⟩
  cases u with
  | read => exact read_owned world h
  | start => exact hpassive (start_passive world d)
  | arm => exact hpassive (arm_passive world d)
  | sendSWTrigger => exact hpassive (sendSWTrigger_passive world d)
  | stop => exact hpassive (stop_passive world d)
  | writeRegister address value => exact hpassive (writeRegister_passive world address value d)
  | readRegister address => exact hpassive (readRegister_passive world address d)

theorem close_owned {s : Resources} {d : CaenDigitizer} (h : Owned s d) :
    ∃ s', Owned s' (close world d) ∧ (d.present = true → s'.handles = s.handles - 1) ∧
      (d.present = false → close world d = d) ∧ (close world d).present = false := by
  unfold close
  cases hpresent : d.present with
  | false =>
    rw [Bool.not_false, if_pos rfl]
    exact ⟨s, h, fun hno => absurd hno Bool.false_ne_true, fun _ => rfl, hpresent⟩
  | true =>
    rw [Bool.not_true, if_neg Bool.false_ne_true]
    have hstopped : Owned s (if d.running then (stop world d).2 else d) := by
      split
      · exact h.passive (stop_passive world d)
      · exact h
    generalize (if d.running then (stop world d).2 else d) = d' at hstopped ⊢
    have hclosed : ∀ {d'' : CaenDigitizer}, Owned { s with buffer := false } d'' →
        Owned { buffer := false, handles := s.handles - 1 }
          { driverDeactivate world d'' with present := false, isActive := false } := by
      intro d'' hfree
      obtain ⟨hdone, hdead⟩ := driverDeactivate_owned world hfree rfl
      refine ⟨hdone.accepts, hdone.state, hdone.buffer, fun hheld => hdone.handle ?_,
        fun _ => ⟨hdone.buffer, rfl⟩⟩
      exact hheld.imp id fun hno => absurd hno Bool.false_ne_true
    refine ⟨{ buffer := false, handles := s.handles - 1 }, ?_, fun _ => rfl,
      fun hno => absurd hno.symm Bool.false_ne_true, rfl⟩
    exact hclosed (freed_owned world hstopped)

theorem use_absent {d : CaenDigitizer} (h : d.present = false) (u : Use) : use world d u = d := by
  cases u <;>
    simp [use, CaenDigitizer.read, CaenDigitizer.start, CaenDigitizer.arm, CaenDigitizer.stop,
      CaenDigitizer.sendSWTrigger, CaenDigitizer.writeRegister, CaenDigitizer.readRegister, h]

/-- With at most one handle, which is gone when the board is. -/
structure Single (opened : Bool) (s : Resources) (d : CaenDigitizer) : Prop where
  most : s.handles ≤ 1
  absent : d.present = false → s.handles = 0
  closed : opened = false → d.present = false

theorem run_owned {calls : List Call} {s : Resources} {d : CaenDigitizer} (h : Owned s d) :
    ∃ s', Owned s' (calls.foldl (call world) d) ∧ ∀ opened, Alternate opened calls →
      Single opened s d → ∃ opened', Single opened' s' (calls.foldl (call world) d) := by
  induction calls generalizing s d with
  | nil => exact ⟨s, h, fun opened _ hsingle => ⟨opened, hsingle⟩⟩
  | cons c calls ih =>
    cases c with
    | prepare =>
      obtain ⟨s₁, h₁, hhandles, hpresent⟩ := prepare_owned world h
      obtain ⟨s', hs', hrest⟩ := ih h₁
      refine ⟨s', hs', fun opened halternate hsingle => hrest true halternate.2 ⟨?_, ?_, ?_⟩⟩
      · rw [hsingle.absent (hsingle.closed halternate.1)] at hhandles
        exact hhandles
      · exact fun hno => Bool.noConfusion (hpresent.symm.trans hno)
      · exact fun hno => absurd hno.symm Bool.false_ne_true
    | use u =>
      obtain ⟨s₁, h₁, hhandles, hpresent⟩ := use_owned world h u
      obtain ⟨s', hs', hrest⟩ := ih h₁
      refine ⟨s', hs', fun opened halternate hsingle => hrest opened halternate ⟨?_, ?_, ?_⟩⟩
      · exact hhandles.trans (max_le hsingle.most (Nat.le_refl 1))
      · intro hno
        have habsent := hpresent.symm.trans hno
        have hsame : s₁ = s := by
          rw [← h₁.state, use_absent world habsent, h.state]
        rw [hsame]
        exact hsingle.absent habsent
      · exact fun hno => hpresent.trans (hsingle.closed hno)
    | close =>
      obtain ⟨s₁, h₁, hhandles, hnothing, habsent⟩ := close_owned world h
      obtain ⟨s', hs', hrest⟩ := ih h₁
      have hgone : ∀ opened, Single opened s d → s₁.handles = 0 := by
        intro opened hsingle
        cases hpresent : d.present with
        | true =>
          have hmost := hsingle.most
          rw [hhandles hpresent]
          omega
        | false =>
          rw [← h₁.state, hnothing hpresent, h.state]
          exact hsingle.absent hpresent
      refine ⟨s', hs', fun opened halternate hsingle => hrest false halternate ⟨?_, ?_, ?_⟩⟩
      · exact (hgone opened hsingle).le.trans (Nat.zero_le 1)
      · exact fun _ => hgone opened hsingle
      · exact fun _ => habsent

/-- Whatever is done with a board and whatever the library answers, the readout buffer is
handed out when there is none, filled and freed only while it is there and the board is open,
and freed before the board is closed; the board knows whether it has one, and has none when it
is closed. A board that is not prepared twice without being closed never has two handles, and
gives back all when it is closed. -/
theorem resources_owned (configPath : Bool) (calls : List Call) :
    library.Accepts {} (lived world configPath calls).calls ∧
      (lived world configPath calls).readoutBuffer =
        (held (lived world configPath calls)).buffer ∧
      (held (close world (lived world configPath calls))).buffer = false ∧
      (Alternate false calls →
        (held (lived world configPath calls)).handles ≤ 1 ∧
          held (close world (lived world configPath calls)) = {}) := by
  have hnew : Owned {} { configPath := configPath } :=
    ⟨trivial, rfl, rfl, fun hno => by simp at hno, fun _ => ⟨rfl, rfl⟩⟩
  have hfresh : Single false {} { configPath := configPath } :=
    ⟨Nat.zero_le 1, fun _ => rfl, fun _ => rfl⟩
  obtain ⟨s, hs, hsingle⟩ := @run_owned world calls _ _ hnew
  change Owned s (lived world configPath calls) at hs
  obtain ⟨s', hs', hhandles, hnothing, habsent⟩ := close_owned world hs
  have hheld : held (lived world configPath calls) = s := hs.state
  have hclosed : held (close world (lived world configPath calls)) = s' := hs'.state
  have hbuffer : s'.buffer = false := hs'.buffer.symm.trans (hs'.absent habsent).1
  rw [hheld, hclosed]
  refine ⟨hs.accepts, hs.buffer, hbuffer, fun halternate => ?_⟩
  obtain ⟨opened, hone⟩ := hsingle false halternate hfresh
  have hnone : s'.handles = 0 := by
    cases hpresent : (lived world configPath calls).present with
    | true =>
      have hmost := hone.most
      rw [hhandles hpresent]
      omega
    | false =>
      rw [← hclosed, hnothing hpresent, hheld]
      exact hone.absent hpresent
  refine ⟨hone.most, ?_⟩
  obtain ⟨buffer, handles⟩ := s'
  cases hbuffer
  cases hnone
  rfl

/-- A read loses the link, and the reconnect of the next one opens the board but cannot reset
it. -/
def halfOpened (n : ℕ) : Reply :=
  if n = 22 then { code := -1 } else if n = 25 then { code := -3, opened := true } else {}

theorem resources_owned_half_opened :
    let d := lived halfOpened false [.prepare, .use .start, .use .read, .use .read]
    (activate halfOpened (release halfOpened
      (lived halfOpened false [.prepare, .use .start, .use .read]))).1 = false ∧
      library.Accepts {} d.calls ∧ d.readoutBuffer = (held d).buffer ∧ (held d).handles = 1 ∧
      held (close halfOpened d) = {} := by
  intro d
  have hfailed : (activate halfOpened (release halfOpened
      (lived halfOpened false [.prepare, .use .start, .use .read]))).1 = false := by decide +kernel
  have hhandles : (held d).handles = 1 := by decide +kernel
  obtain ⟨haccepts, hbuffer, _, hclosed⟩ :=
    resources_owned halfOpened false [.prepare, .use .start, .use .read, .use .read]
  exact ⟨hfailed, haccepts, hbuffer, hhandles, (hclosed ⟨rfl, trivial⟩).2⟩

/-- The connection is lost when the buffer is to be handed out: a second `prepare` opens the
board once more. -/
example : held (lived (fun n => { code := if n = 10 then -1 else 0 }) false
    [.prepare, .prepare]) = { buffer := true, handles := 2 } := by decide +kernel

end BoardResources
end CaenDaq
