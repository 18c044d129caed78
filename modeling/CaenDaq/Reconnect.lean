import CaenDaq.CaenDigitizer

/-!
# Recovery across failed attempts

What a `read` does depends on the connection and on the readout buffer, and only a few
answers of the outside decide over the buffer. Those answers are named here, followed
through one reconnect attempt, and then through any number of reads.
-/

namespace CaenDaq
namespace Reconnect

open CaenDigitizer

/-- The answers after which an attempt stops short of a new readout buffer: the board
cannot be opened, its configuration file is missing, or no buffer is handed out. -/
def bufferLost : Contact × Reply → Bool
  | (.openDigitizer, r) => r.code ≠ 0
  | (.configureFromFile, r) => r.code = configFileNotFound
  | (.mallocReadoutBuffer, r) => !r.buffer
  | _ => false

def succeeded (c : Contact × Reply) : Bool := c.2.code = 0 && c.2.buffer && !c.2.linkLost

/-- Steps that leave the buffer as it is and make only calls of no consequence to it. -/
structure Quiet (cs : List (Contact × Reply)) (d d' : CaenDigitizer) : Prop where
  calls : d'.calls = d.calls ++ cs
  harmless : ∀ c ∈ cs, bufferLost c = false
  present : d'.present = d.present
  buffer : d'.readoutBuffer = d.readoutBuffer
  clean : (∀ c ∈ cs, succeeded c = true) → d.errcode = 0 → d'.errcode = 0

def Quietly (d d' : CaenDigitizer) : Prop := ∃ cs, Quiet cs d d'

theorem Quietly.refl (d : CaenDigitizer) : Quietly d d :=
  ⟨[], by simp, by simp, rfl, rfl, fun _ h => h⟩

theorem Quietly.trans {d₁ d₂ d₃ : CaenDigitizer} (h : Quietly d₁ d₂) (h' : Quietly d₂ d₃) :
    Quietly d₁ d₃ := by
  obtain ⟨cs, hq⟩ := h
  obtain ⟨cs', hq'⟩ := h'
  refine ⟨cs ++ cs', ?_, List.forall_mem_append.mpr ⟨hq.harmless, hq'.harmless⟩,
    hq'.present.trans hq.present, hq'.buffer.trans hq.buffer, ?_⟩
  · rw [hq'.calls, hq.calls, List.append_assoc]
  · intro hall herr
    obtain ⟨hfirst, hsecond⟩ := List.forall_mem_append.mp hall
    exact hq'.clean hsecond (hq.clean hfirst herr)

theorem Quietly.clearError (d : CaenDigitizer) : Quietly d (CaenDigitizer.clearError d) :=
  ⟨[], by simp [CaenDigitizer.clearError], by simp, rfl, rfl, fun _ _ => rfl⟩

variable (world : ℕ → Reply)

def Harmless (c : Contact) : Prop := ∀ r, bufferLost (c, r) = false

theorem drive_fields (c : Contact) (d : CaenDigitizer) :
    (drive world c d).2.calls = d.calls ++ [(c, (drive world c d).1)] ∧
      (drive world c d).2.present = d.present ∧
      (drive world c d).2.readoutBuffer = d.readoutBuffer ∧
      (drive world c d).2.errcode =
        if (drive world c d).1.code ≠ 0 then (drive world c d).1.code else d.errcode := by
  by_cases hcode : (world d.calls.length).code = 0
  · simp [drive, contact, hcode]
  · simp [drive, contact, hcode, emitError]

theorem drive_inactive (c : Contact) {d : CaenDigitizer} (h : d.isActive = false) :
    (drive world c d).2.isActive = false := by
  by_cases hcode : (world d.calls.length).code = 0
  · simp [drive, contact, hcode, h]
  · simp [drive, contact, hcode, emitError, h]

theorem drive_quiet {c : Contact} (hc : Harmless c) (d : CaenDigitizer) :
    Quietly d (drive world c d).2 := by
  obtain ⟨hcalls, hpresent, hbuffer, herr⟩ := drive_fields world c d
  refine ⟨_, hcalls, ?_, hpresent, hbuffer, ?_⟩
  · intro x hx
    obtain rfl := List.mem_singleton.mp hx
    exact hc _
  · intro hall hzero
    have hs := hall _ (List.mem_singleton_self _)
    simp only [succeeded, Bool.and_eq_true, decide_eq_true_eq] at hs
    rw [herr, if_neg (not_not.mpr hs.1.1), hzero]

theorem contact_quiet {c : Contact} (hc : Harmless c) (d : CaenDigitizer) :
    Quietly d (contact world c d).2 := by
  refine ⟨[(c, world d.calls.length)], rfl, ?_, rfl, rfl, fun _ h => h⟩
  intro x hx
  obtain rfl := List.mem_singleton.mp hx
  exact hc _

theorem Quietly.info (d : CaenDigitizer) (info : BoardInfo) : Quietly d { d with info := info } :=
  ⟨[], by simp, by simp, rfl, rfl, fun _ h => h⟩

theorem Quietly.running (d : CaenDigitizer) (running : Bool) :
    Quietly d { d with running := running } :=
  ⟨[], by simp, by simp, rfl, rfl, fun _ h => h⟩

theorem quiet_frame : Frame world Quietly where
  refl := Quietly.refl
  trans _ _ _ h h' := h.trans h'
  cleared := Quietly.clearError
  informed := Quietly.info
  driven c d hc := drive_quiet world (fun _ => by cases c <;> first | rfl | cases hc) d

theorem setRegisterSpecificBits_quiet (address lower upper value : ℕ) (d : CaenDigitizer) :
    Quietly d (setRegisterSpecificBits world address lower upper value d) := by
  have hread := drive_quiet world (c := .readRegister address) (fun _ => rfl) d
  unfold setRegisterSpecificBits
  dsimp only
  by_cases hcode : (contact world (.readRegister address) d).1.code ≠ 0
  · rw [if_pos hcode]
    rwa [drive, if_pos hcode] at hread
  · rw [if_neg hcode]
    rw [drive, if_neg hcode] at hread
    exact hread.trans (drive_quiet world (fun _ => rfl) _)

theorem arm_quiet (d : CaenDigitizer) : Quietly d (arm world d).2 := by
  have hbits : Quietly d (setRegisterSpecificBits world kRegAcquisitionControl 2 2 1
      (drive world .clearData (CaenDigitizer.clearError d)).2) :=
    (Quietly.clearError d).trans ((drive_quiet world (fun _ => rfl) _).trans
      (setRegisterSpecificBits_quiet world _ _ _ _ _))
  unfold arm
  split
  · exact Quietly.refl d
  · dsimp only
    split
    · exact hbits
    · exact hbits.trans (Quietly.running _ true)

theorem resume_quiet (d : CaenDigitizer) : Quietly d (resume world d).2 := by
  unfold resume
  split
  · split
    · exact (Quietly.running d false).trans (arm_quiet world _)
    · exact (quiet_frame world).driverStart d
  · exact Quietly.refl d

theorem not_lost_of_succeeded {c : Contact × Reply} (h : succeeded c = true) : bufferLost c = false := by
  obtain ⟨call, r⟩ := c
  simp only [succeeded, Bool.and_eq_true, decide_eq_true_eq] at h
  cases call with
  | openDigitizer => simp [bufferLost, h.1.1]
  | configureFromFile => simp [bufferLost, h.1.1, configFileNotFound]
  | mallocReadoutBuffer => simp [bufferLost, h.1.2]
  | _ => rfl

theorem Quietly.errcode {d d' : CaenDigitizer} (h : Quietly d d') (hzero : d.errcode = 0)
    {cs : List (Contact × Reply)} (hcs : d'.calls = d.calls ++ cs)
    (hall : ∀ c ∈ cs, succeeded c = true) : d'.errcode = 0 := by
  obtain ⟨cs', hq⟩ := h
  obtain rfl : cs' = cs := List.append_cancel_left (hq.calls.symm.trans hcs)
  exact hq.clean hall hzero

theorem driverStart_ok (d : CaenDigitizer) {cs : List (Contact × Reply)}
    (hcs : (driverStart world d).calls = d.calls ++ cs) (hall : ∀ c ∈ cs, succeeded c = true) :
    (driverStart world d).errcode = 0 := by
  have h : Quietly (CaenDigitizer.clearError d) (driverStart world d) :=
    (drive_quiet world (fun _ => rfl) _).trans (drive_quiet world (fun _ => rfl) _)
  exact h.errcode rfl hcs hall

theorem arm_ok {d : CaenDigitizer} (hpresent : d.present = true) {cs : List (Contact × Reply)}
    (hcs : (arm world d).2.calls = d.calls ++ cs) (hall : ∀ c ∈ cs, succeeded c = true) :
    (arm world d).1 = true := by
  have h : Quietly (CaenDigitizer.clearError d) (setRegisterSpecificBits world
      kRegAcquisitionControl 2 2 1 (drive world .clearData (CaenDigitizer.clearError d)).2) :=
    (drive_quiet world (fun _ => rfl) _).trans (setRegisterSpecificBits_quiet world _ _ _ _ _)
  have habsent : ¬(!d.present) = true := by simp [hpresent]
  rw [arm, if_neg habsent] at hcs ⊢
  dsimp only at hcs ⊢
  by_cases herr : (setRegisterSpecificBits world kRegAcquisitionControl 2 2 1
      (drive world .clearData (CaenDigitizer.clearError d)).2).errcode ≠ 0
  · rw [if_pos herr] at hcs
    exact absurd (h.errcode rfl hcs hall) herr
  · rw [if_neg herr]

theorem resume_ok {d : CaenDigitizer} (hpresent : d.present = true) {cs : List (Contact × Reply)}
    (hcs : (resume world d).2.calls = d.calls ++ cs) (hall : ∀ c ∈ cs, succeeded c = true) :
    (resume world d).1 = true := by
  unfold resume at hcs ⊢
  by_cases hrun : d.running = true
  · rw [if_pos hrun] at hcs ⊢
    by_cases hsync : d.synchronised = true
    · rw [if_pos hsync] at hcs ⊢
      exact arm_ok world (d := { d with running := false }) hpresent hcs hall
    · rw [if_neg hsync] at hcs ⊢
      exact decide_eq_true (driverStart_ok world d hcs hall)
  · rw [if_neg hrun]

theorem activate_spec {d : CaenDigitizer} (hactive : d.isActive = false) :
    ∃ r cs, (activate world d).2.calls = d.calls ++ (.openDigitizer, r) :: cs ∧
      (∀ c ∈ cs, bufferLost c = false) ∧ (activate world d).2.present = true ∧
      (activate world d).2.readoutBuffer = d.readoutBuffer ∧
      (activate world d).1 = decide (r.code = 0) := by
  have hdrops : dropsConnection 0 = false := by decide
  have hopened : ¬(CaenDigitizer.clearError { d with present := true }).isActive = true := by
    simp [CaenDigitizer.clearError, hactive]
  refine ⟨world d.calls.length, ?_⟩
  unfold activate driverActivate
  rw [if_neg hopened]
  by_cases hcode : (world d.calls.length).code = 0
  · obtain ⟨cs, hq⟩ := (quiet_frame world).refreshBoardInfo (emitError 0
      { (contact world .openDigitizer (CaenDigitizer.clearError { d with present := true })).2 with
        isActive := true })
    refine ⟨cs, ?_⟩
    simp only [contact, CaenDigitizer.clearError, hcode, emitError, hdrops, decide_true,
      Bool.true_or, Bool.not_false, Bool.and_self, ne_eq, not_true_eq_false, Bool.true_eq_false,
      or_self, if_false] at hq ⊢
    exact ⟨by rw [hq.calls, List.append_assoc, List.singleton_append], hq.harmless, hq.present,
      hq.buffer, trivial⟩
  · refine ⟨[], ?_⟩
    simp [contact, CaenDigitizer.clearError, hcode, emitError]

theorem applyConfigFile_dump {d : CaenDigitizer} (hpath : d.configPath = true)
    {entries : List (ℕ × Word)} (hdump : (contact world .loadDump d).1.dump = some entries) :
    applyConfigFile world d = (true, writeDump world (contact world .loadDump d).2 entries) := by
  simp [applyConfigFile, applyRegisterDump, hpath, hdump]

theorem applyConfigFile_driver {d : CaenDigitizer} (hpath : d.configPath = true)
    (hdump : (contact world .loadDump d).1.dump = none) :
    let d' := driverConfigureFromFile world (CaenDigitizer.clearError (contact world .loadDump d).2)
    applyConfigFile world d = (decide (d'.errcode ≠ configFileNotFound), d') := by
  simp [applyConfigFile, applyRegisterDump, hpath, hdump]

theorem applyConfigFile_spec (d : CaenDigitizer) :
    ∃ cs, (applyConfigFile world d).2.calls = d.calls ++ cs ∧
      (applyConfigFile world d).2.present = d.present ∧
      (applyConfigFile world d).2.readoutBuffer = d.readoutBuffer ∧
      ((applyConfigFile world d).1 = true ↔ ∀ c ∈ cs, bufferLost c = false) := by
  by_cases hpath : d.configPath = true
  · have hload := contact_quiet world (c := .loadDump) (fun _ => rfl) d
    cases hdump : (contact world .loadDump d).1.dump with
    | some entries =>
      obtain ⟨cs, hq⟩ := hload.trans ((quiet_frame world).writeDump entries _)
      rw [applyConfigFile_dump world hpath hdump]
      exact ⟨cs, hq.calls, hq.present, hq.buffer, fun _ => hq.harmless, fun _ => rfl⟩
    | none =>
      obtain ⟨cs, hq⟩ := hload.trans (Quietly.clearError _)
      obtain ⟨hcalls, hpresent, hbuffer, herr⟩ := drive_fields world .configureFromFile
        (CaenDigitizer.clearError (contact world .loadDump d).2)
      rw [applyConfigFile_driver world hpath hdump]
      refine ⟨cs ++ [(.configureFromFile, (drive world .configureFromFile
        (CaenDigitizer.clearError (contact world .loadDump d).2)).1)], ?_, hpresent.trans hq.present,
        hbuffer.trans hq.buffer, ?_⟩
      · show (drive world .configureFromFile _).2.calls = _
        rw [hcalls, hq.calls, List.append_assoc]
      · generalize (drive world .configureFromFile
          (CaenDigitizer.clearError (contact world .loadDump d).2)).1 = r at herr
        have hcode : (driverConfigureFromFile world
            (CaenDigitizer.clearError (contact world .loadDump d).2)).errcode ≠ configFileNotFound ↔
              bufferLost (.configureFromFile, r) = false := by
          show (drive world .configureFromFile _).2.errcode ≠ configFileNotFound ↔ _
          rw [herr, bufferLost, decide_eq_false_iff_not]
          by_cases hr : r.code = 0
          · simp [hr, CaenDigitizer.clearError, configFileNotFound]
          · rw [if_pos hr]
        rw [decide_eq_true_eq, hcode, List.forall_mem_append, List.forall_mem_singleton]
        exact (and_iff_right hq.harmless).symm
  · rw [applyConfigFile, if_neg hpath]
    exact ⟨[], by simp⟩

theorem allocate_spec {d : CaenDigitizer} (hbuffer : d.readoutBuffer = false) :
    ∃ r, (allocate world d).2.calls = d.calls ++ [(.mallocReadoutBuffer, r)] ∧
      (allocate world d).2.present = d.present ∧
      (allocate world d).2.readoutBuffer = r.buffer ∧
      (allocate world d).1 = (decide (r.code = 0) && r.buffer) := by
  have hno : ¬d.readoutBuffer = true := by simp [hbuffer]
  obtain ⟨hcalls, hpresent, _, herr⟩ := drive_fields world .mallocReadoutBuffer
    (CaenDigitizer.clearError d)
  refine ⟨(drive world .mallocReadoutBuffer (CaenDigitizer.clearError d)).1, ?_⟩
  simp only [allocate, if_neg hno]
  refine ⟨hcalls, hpresent, trivial, ?_⟩
  rw [herr]
  congr 1
  by_cases hr : (drive world .mallocReadoutBuffer (CaenDigitizer.clearError d)).1.code = 0
  · rw [if_neg (not_not.mpr hr), hr]
    rfl
  · rw [if_pos hr]

theorem applyConfig_spec {d : CaenDigitizer} (hpresent : d.present = true)
    (hbuffer : d.readoutBuffer = false) :
    ∃ cs, (applyConfig world d).2.calls = d.calls ++ cs ∧
      (applyConfig world d).2.present = true ∧
      ((applyConfig world d).2.readoutBuffer = true ↔ ∀ c ∈ cs, bufferLost c = false) ∧
      ((applyConfig world d).1 = true → (applyConfig world d).2.readoutBuffer = true) ∧
      ((∀ c ∈ cs, succeeded c = true) → (applyConfig world d).1 = true) := by
  obtain ⟨cs, hcalls, hstill, hsame, hok⟩ := applyConfigFile_spec world d
  have habsent : ¬(!d.present) = true := by simp [hpresent]
  rw [applyConfig, if_neg habsent]
  dsimp only
  by_cases hfile : (applyConfigFile world d).1 = true
  · obtain ⟨r, hcalls', hstill', hbuf, hok'⟩ := allocate_spec world (hsame.trans hbuffer)
    rw [if_pos hfile]
    refine ⟨cs ++ [(.mallocReadoutBuffer, r)], ?_, hstill'.trans (hstill.trans hpresent), ?_, ?_, ?_⟩
    · rw [hcalls', hcalls, List.append_assoc]
    · rw [hbuf, List.forall_mem_append, List.forall_mem_singleton, and_iff_right (hok.mp hfile)]
      simp [bufferLost]
    · rw [hok', hbuf, Bool.and_eq_true]
      exact fun h => h.2
    · intro hall
      have hlast := hall _ (List.mem_append_right _ (List.mem_singleton_self _))
      simp only [succeeded, Bool.and_eq_true] at hlast
      rw [hok', Bool.and_eq_true]
      exact hlast.1
  · rw [if_neg hfile]
    have hlost : ¬∀ c ∈ cs, bufferLost c = false := fun h => hfile (hok.mpr h)
    refine ⟨cs, hcalls, hstill.trans hpresent, ?_, fun h => absurd h Bool.false_ne_true, ?_⟩
    · rw [hsame, hbuffer]
      exact ⟨fun h => absurd h Bool.false_ne_true, fun h => absurd h hlost⟩
    · intro hall
      exact absurd (fun c hc => not_lost_of_succeeded (hall c hc)) hlost

theorem release_spec (d : CaenDigitizer) :
    ∃ cs, (release world d).calls = d.calls ++ cs ∧ (∀ c ∈ cs, bufferLost c = false) ∧
      (release world d).present = d.present ∧ (release world d).readoutBuffer = false ∧
      (release world d).isActive = false := by
  have hclose : ∀ d : CaenDigitizer, ∃ cs, (driverDeactivate world d).calls = d.calls ++ cs ∧
      (∀ c ∈ cs, bufferLost c = false) ∧ (driverDeactivate world d).present = d.present ∧
      (driverDeactivate world d).readoutBuffer = d.readoutBuffer ∧
      (driverDeactivate world d).isActive = false := by
    intro d
    obtain ⟨cs, hq⟩ := drive_quiet world (c := .closeDigitizer) (fun _ => rfl)
      { d with isActive := false }
    exact ⟨cs, hq.calls, hq.harmless, hq.present, hq.buffer, drive_inactive world _ rfl⟩
  unfold release
  cases hb : d.readoutBuffer with
  | false =>
    obtain ⟨cs, hcalls, hharmless, hpresent, hbuffer, hactive⟩ := hclose d
    exact ⟨cs, hcalls, hharmless, hpresent, hbuffer.trans hb, hactive⟩
  | true =>
    obtain ⟨cs, hq⟩ := drive_quiet world (c := .freeReadoutBuffer) (fun _ => rfl) d
    obtain ⟨cs', hcalls, hharmless, hpresent, hbuffer, hactive⟩ :=
      hclose { (drive world .freeReadoutBuffer d).2 with readoutBuffer := false }
    rw [if_pos rfl]
    refine ⟨cs ++ cs', ?_, ?_, hpresent.trans hq.present, hbuffer, hactive⟩
    · rw [hcalls, ← List.append_assoc]
      exact congrArg (· ++ cs') hq.calls
    · exact List.forall_mem_append.mpr ⟨hq.harmless, hharmless⟩

/-- One reconnect attempt: it opens the board, and it leaves a buffer behind exactly if
none of the answers took it away. -/
theorem reconnect_spec {d : CaenDigitizer} (hpresent : d.present = true) :
    ∃ cs, (reconnect world d).2.calls = d.calls ++ cs ∧ (∃ r, (.openDigitizer, r) ∈ cs) ∧
      (reconnect world d).2.present = true ∧
      ((reconnect world d).2.readoutBuffer = true ↔ ∀ c ∈ cs, bufferLost c = false) ∧
      ((reconnect world d).1 = true → (reconnect world d).2.readoutBuffer = true) ∧
      ((∀ c ∈ cs, succeeded c = true) → (reconnect world d).1 = true) := by
  obtain ⟨cs₀, hcalls₀, hharmless₀, hpresent₀, hbuffer₀, hactive⟩ := release_spec world d
  obtain ⟨r, cs₁, hcalls₁, hharmless₁, hpresent₁, hbuffer₁, hok₁⟩ := activate_spec world hactive
  unfold reconnect
  rw [if_pos hpresent]
  dsimp only
  by_cases hopen : r.code = 0
  · obtain ⟨cs₂, hcalls₂, hpresent₂, hbuffer₂, hok₂, hall₂⟩ :=
      applyConfig_spec world hpresent₁ (hbuffer₁.trans hbuffer₀)
    have hopened : bufferLost (.openDigitizer, r) = false := by simp [bufferLost, hopen]
    have hbefore : ∀ c ∈ cs₀ ++ (.openDigitizer, r) :: cs₁, bufferLost c = false :=
      List.forall_mem_append.mpr ⟨hharmless₀, List.forall_mem_cons.mpr ⟨hopened, hharmless₁⟩⟩
    have hcalls : (applyConfig world (activate world (release world d)).2).2.calls =
        d.calls ++ ((cs₀ ++ (.openDigitizer, r) :: cs₁) ++ cs₂) := by
      rw [hcalls₂, hcalls₁, hcalls₀]
      simp only [List.append_assoc]
    rw [if_pos (by rw [hok₁]; exact decide_eq_true hopen)]
    by_cases hconfig : (applyConfig world (activate world (release world d)).2).1 = true
    · obtain ⟨cs₃, hq⟩ := ((quiet_frame world).refreshBoardInfo
        (applyConfig world (activate world (release world d)).2).2)
      obtain ⟨cs₄, hq'⟩ := resume_quiet world (refreshBoardInfo world
        (applyConfig world (activate world (release world d)).2).2)
      have hpresent₄ := hq.present.trans hpresent₂
      have hbuffer₄ := (hq'.buffer.trans hq.buffer).trans (hok₂ hconfig)
      rw [if_pos hconfig]
      refine ⟨(cs₀ ++ (.openDigitizer, r) :: cs₁) ++ cs₂ ++ cs₃ ++ cs₄, ?_, ⟨r, by simp⟩,
        hq'.present.trans hpresent₄, ?_, fun _ => hbuffer₄, ?_⟩
      · rw [hq'.calls, hq.calls, hcalls]
        simp only [List.append_assoc]
      · refine ⟨fun _ => ?_, fun _ => hbuffer₄⟩
        have hconfigured := hbuffer₂.mp (hok₂ hconfig)
        simp only [List.forall_mem_append]
        exact ⟨⟨⟨List.forall_mem_append.mp hbefore, hconfigured⟩, hq.harmless⟩, hq'.harmless⟩
      · intro hall
        exact resume_ok world hpresent₄ hq'.calls (List.forall_mem_append.mp hall).2
    · rw [if_neg hconfig]
      refine ⟨(cs₀ ++ (.openDigitizer, r) :: cs₁) ++ cs₂, hcalls, ⟨r, by simp⟩, hpresent₂, ?_,
        fun h => absurd h Bool.false_ne_true, ?_⟩
      · rw [hbuffer₂, List.forall_mem_append, and_iff_right hbefore]
      · intro hall
        exact absurd (hall₂ (List.forall_mem_append.mp hall).2) hconfig
  · have hfailed : (.openDigitizer, r) ∈ cs₀ ++ (.openDigitizer, r) :: cs₁ := by simp
    rw [if_neg (by rw [hok₁]; simp [hopen])]
    refine ⟨cs₀ ++ (.openDigitizer, r) :: cs₁, ?_, ⟨r, hfailed⟩, hpresent₁, ?_,
      fun h => absurd h Bool.false_ne_true, ?_⟩
    · rw [hcalls₁, hcalls₀, List.append_assoc]
    · rw [hbuffer₁, hbuffer₀]
      refine ⟨fun h => absurd h Bool.false_ne_true, fun hall => ?_⟩
      have hlost := hall _ hfailed
      simp only [bufferLost, decide_eq_false_iff_not, not_not] at hlost
      exact absurd hlost hopen
    · intro hall
      have hs := hall _ hfailed
      simp only [succeeded, Bool.and_eq_true, decide_eq_true_eq] at hs
      exact absurd hs.1.1 hopen

def made (d d' : CaenDigitizer) : List (Contact × Reply) := d'.calls.drop d.calls.length

theorem made_eq {d d' : CaenDigitizer} {cs : List (Contact × Reply)} (h : d'.calls = d.calls ++ cs) :
    made d d' = cs := by rw [made, h, List.drop_left]

/-- A read without a readout buffer ends before it looks at the connection. -/
theorem read_without_buffer {d : CaenDigitizer} (h : d.readoutBuffer = false) :
    read world d = (none, d) := by
  unfold CaenDigitizer.read
  rw [if_pos (by simp [h])]

theorem connection_spec {d : CaenDigitizer} (hpresent : d.present = true)
    (hbuffer : d.readoutBuffer = true) :
    ∃ cs, (if d.connected then (true, d) else reconnect world d).2.calls = d.calls ++ cs ∧
      (d.connected = false → ∃ r, (.openDigitizer, r) ∈ cs) ∧
      (if d.connected then (true, d) else reconnect world d).2.present = true ∧
      ((if d.connected then (true, d) else reconnect world d).2.readoutBuffer = true ↔
        ∀ c ∈ cs, bufferLost c = false) ∧
      ((∀ c ∈ cs, succeeded c = true) →
        (if d.connected then (true, d) else reconnect world d).1 = true) := by
  by_cases hconnected : d.connected = true
  · rw [if_pos hconnected]
    exact ⟨[], by simp, by simp [hconnected], hpresent, by simp [hbuffer], fun _ => rfl⟩
  · obtain ⟨cs, hcalls, hopened, hstill, hbuf, _, hall⟩ := reconnect_spec world hpresent
    rw [if_neg hconnected]
    exact ⟨cs, hcalls, fun _ => hopened, hstill, hbuf, hall⟩

theorem read_spec {d : CaenDigitizer} (hpresent : d.present = true)
    (hbuffer : d.readoutBuffer = true) :
    ∃ cs, (read world d).2.calls = d.calls ++ cs ∧
      (d.connected = false → ∃ r, (.openDigitizer, r) ∈ cs) ∧
      (read world d).2.present = true ∧
      ((read world d).2.readoutBuffer = true ↔ ∀ c ∈ cs, bufferLost c = false) ∧
      ((∀ c ∈ cs, succeeded c = true) → (read world d).1.isSome = true) := by
  have hguard : ¬(!d.present || !d.readoutBuffer) = true := by simp [hpresent, hbuffer]
  obtain ⟨cs, hcalls, hopened, hstill, hbuf, hall⟩ := connection_spec world hpresent hbuffer
  unfold CaenDigitizer.read
  rw [if_neg hguard]
  dsimp only
  generalize (if d.connected then (true, d) else reconnect world d) = r at hcalls hstill hbuf hall ⊢
  by_cases hok : r.1 = true
  · rw [if_pos hok]
    obtain ⟨hcalls', hpresent', hbuffer', herr'⟩ := drive_fields world .readData
      { CaenDigitizer.clearError r.2 with bufferSize := 0 }
    generalize drive world .readData { CaenDigitizer.clearError r.2 with bufferSize := 0 } = s
      at hcalls' hpresent' hbuffer' herr' ⊢
    have hsame : (if s.2.errcode ≠ 0 then
        ((none : Option ℕ), { s.2 with bufferSize := s.1.value.toNat })
        else (some s.1.value.toNat, { s.2 with bufferSize := s.1.value.toNat })).2 =
          { s.2 with bufferSize := s.1.value.toNat } := by split <;> rfl
    have hharmless : bufferLost (.readData, s.1) = false := rfl
    refine ⟨cs ++ [(.readData, s.1)], ?_, ?_, ?_, ?_, ?_⟩
    · rw [hsame, ← List.append_assoc, ← hcalls]
      exact hcalls'
    · intro hdown
      obtain ⟨r', hr'⟩ := hopened hdown
      exact ⟨r', List.mem_append_left _ hr'⟩
    · rw [hsame]
      exact hpresent'.trans hstill
    · rw [hsame, List.forall_mem_append, List.forall_mem_singleton, and_iff_left hharmless, ← hbuf]
      show s.2.readoutBuffer = true ↔ _
      rw [hbuffer']
      rfl
    · intro hsucceeded
      have hs := hsucceeded _ (List.mem_append_right _ (List.mem_singleton_self _))
      simp only [succeeded, Bool.and_eq_true, decide_eq_true_eq] at hs
      have hzero : s.2.errcode = 0 := by
        rw [herr', if_neg (not_not.mpr hs.1.1)]
        rfl
      rw [if_neg (not_not.mpr hzero)]
      rfl
  · rw [if_neg hok]
    exact ⟨cs, hcalls, hopened, hstill, hbuf, fun h => absurd (hall h) hok⟩

/-- A read that finds the connection down tries to get it back, and a read in which
every call succeeds delivers. -/
def KeepsTrying (d : CaenDigitizer) : Prop :=
  (d.connected = false → ∃ r, (.openDigitizer, r) ∈ made d (read world d).2) ∧
    ((∀ c ∈ made d (read world d).2, succeeded c = true) → (read world d).1.isSome = true)

/-- Recovery depends on the readout buffer alone. -/
theorem keepsTrying_iff {d : CaenDigitizer} (hpresent : d.present = true) :
    KeepsTrying world d ↔ d.readoutBuffer = true := by
  constructor
  · intro h
    by_contra hb
    have hread := read_without_buffer world (eq_false_of_ne_true hb)
    have hsome := h.2 (by rw [hread, @made_eq d d [] (by simp)]; simp)
    rw [hread] at hsome
    exact absurd hsome Bool.false_ne_true
  · intro hb
    obtain ⟨cs, hcalls, hopened, _, _, hall⟩ := read_spec world hpresent hb
    rw [KeepsTrying, made_eq hcalls]
    exact ⟨hopened, hall⟩

/-- What is done with a board while it is open. -/
inductive Use
  | read | start | arm | sendSWTrigger | stop
  | writeRegister (address : ℕ) (value : Word)
  | readRegister (address : ℕ)
  deriving DecidableEq, Repr

def use (d : CaenDigitizer) : Use → CaenDigitizer
  | .read => (read world d).2
  | .start => (start world d).2
  | .arm => (arm world d).2
  | .sendSWTrigger => (sendSWTrigger world d).2
  | .stop => (stop world d).2
  | .writeRegister address value => (writeRegister world address value d).2
  | .readRegister address => (readRegister world address d).2

theorem start_quiet (d : CaenDigitizer) : Quietly d (start world d).2 := by
  unfold start
  split
  · exact Quietly.refl d
  · dsimp only
    split
    · exact (quiet_frame world).driverStart d
    · exact ((quiet_frame world).driverStart d).trans (Quietly.running _ true)

theorem writeRegister_quiet (address : ℕ) (value : Word) (d : CaenDigitizer) :
    Quietly d (writeRegister world address value d).2 := by
  have hwrite := (Quietly.clearError d).trans
    (drive_quiet world (c := .writeRegister address value) (fun _ => rfl) _)
  unfold writeRegister
  split
  · exact Quietly.refl d
  · dsimp only
    split
    · exact hwrite.trans (Quietly.clearError _)
    · exact hwrite

theorem readRegister_quiet (address : ℕ) (d : CaenDigitizer) :
    Quietly d (readRegister world address d).2 := by
  have hread := (Quietly.clearError d).trans
    (drive_quiet world (c := .readRegister address) (fun _ => rfl) _)
  unfold readRegister
  split
  · exact Quietly.refl d
  · dsimp only
    split
    · exact hread.trans (Quietly.clearError _)
    · exact hread

theorem sendSWTrigger_quiet (d : CaenDigitizer) : Quietly d (sendSWTrigger world d).2 := by
  unfold sendSWTrigger
  split
  · exact Quietly.refl d
  · exact (Quietly.clearError d).trans (drive_quiet world (fun _ => rfl) _)

theorem stop_quiet (d : CaenDigitizer) : Quietly d (stop world d).2 := by
  unfold stop
  split
  · exact Quietly.refl d
  · exact (Quietly.running d false).trans ((Quietly.clearError _).trans
      (drive_quiet world (fun _ => rfl) _))

/-- A board keeps its readout buffer exactly if no answer since `d₀` took it away. -/
structure Holds (d₀ d : CaenDigitizer) : Prop where
  present : d.present = true
  later : d.calls = d₀.calls ++ made d₀ d
  buffer : d.readoutBuffer = true ↔ ∀ c ∈ made d₀ d, bufferLost c = false

variable {world}

theorem Holds.refl {d : CaenDigitizer} (hpresent : d.present = true)
    (hbuffer : d.readoutBuffer = true) : Holds d d := by
  have hmade : made d d = [] := made_eq (by simp)
  exact ⟨hpresent, by simp [hmade], by simp [hmade, hbuffer]⟩

theorem Holds.quietly {d₀ d d' : CaenDigitizer} (h : Holds d₀ d) (hq : Quietly d d') :
    Holds d₀ d' := by
  obtain ⟨cs, hq⟩ := hq
  have hcalls : d'.calls = d₀.calls ++ (made d₀ d ++ cs) := by
    rw [hq.calls, ← List.append_assoc, ← h.later]
  refine ⟨hq.present.trans h.present, by rw [made_eq hcalls, hcalls], ?_⟩
  rw [hq.buffer, h.buffer, made_eq hcalls, List.forall_mem_append, and_iff_left hq.harmless]

theorem Holds.read {d₀ d : CaenDigitizer} (h : Holds d₀ d) :
    Holds d₀ (CaenDigitizer.read world d).2 := by
  cases hb : d.readoutBuffer with
  | false =>
    rw [read_without_buffer world hb]
    exact h
  | true =>
    obtain ⟨cs, hcalls, _, hpresent, hbuffer, _⟩ := read_spec world h.present hb
    have hkept := h.buffer.mp hb
    have hcalls' : (CaenDigitizer.read world d).2.calls = d₀.calls ++ (made d₀ d ++ cs) := by
      rw [hcalls, ← List.append_assoc, ← h.later]
    refine ⟨hpresent, by rw [made_eq hcalls', hcalls'], ?_⟩
    rw [hbuffer, made_eq hcalls', List.forall_mem_append, and_iff_right hkept]

theorem Holds.use {d₀ d : CaenDigitizer} (h : Holds d₀ d) (u : Use) :
    Holds d₀ (Reconnect.use world d u) := by
  cases u with
  | read => exact h.read
  | start => exact h.quietly (start_quiet world d)
  | arm => exact h.quietly (arm_quiet world d)
  | sendSWTrigger => exact h.quietly (sendSWTrigger_quiet world d)
  | stop => exact h.quietly (stop_quiet world d)
  | writeRegister address value => exact h.quietly (writeRegister_quiet world address value d)
  | readRegister address => exact h.quietly (readRegister_quiet world address d)

variable (world)

def inUse (d : CaenDigitizer) (uses : List Use) : CaenDigitizer := uses.foldl (use world) d

theorem Holds.inUse {d₀ d : CaenDigitizer} (h : Holds d₀ d) (uses : List Use) :
    Holds d₀ (Reconnect.inUse world d uses) := by
  unfold Reconnect.inUse
  induction uses generalizing d with
  | nil => exact h
  | cons u uses ih => exact ih (h.use u)

theorem allocate_ok {d : CaenDigitizer} (h : (allocate world d).1 = true) :
    (allocate world d).2.readoutBuffer = true := by
  simp only [allocate, Bool.and_eq_true] at h
  exact h.2

theorem allocate_present (d : CaenDigitizer) : (allocate world d).2.present = d.present := by
  have hfreed : (if d.readoutBuffer then
      { (drive world .freeReadoutBuffer d).2 with readoutBuffer := false, bufferSize := 0 }
      else d).present = d.present := by
    split
    · exact (drive_fields world .freeReadoutBuffer d).2.1
    · rfl
  exact ((drive_fields world .mallocReadoutBuffer _).2.1).trans hfreed

theorem configure_ok {d : CaenDigitizer} (h : (configure world d).1 = true) :
    (configure world d).2.present = true ∧ (configure world d).2.readoutBuffer = true := by
  have hpresent : ¬(!d.present) = true := by
    intro habsent
    rw [configure, applyConfig, if_pos habsent] at h
    exact absurd h Bool.false_ne_true
  have hconfig : (applyConfig world d).1 = true := by
    by_contra hfailed
    rw [configure, if_neg hfailed] at h
    exact absurd h Bool.false_ne_true
  have hfile : (applyConfigFile world d).1 = true := by
    by_contra hfailed
    rw [applyConfig, if_neg hpresent, if_neg hfailed] at hconfig
    exact absurd hconfig Bool.false_ne_true
  have hallocated : applyConfig world d = allocate world (applyConfigFile world d).2 := by
    rw [applyConfig, if_neg hpresent, if_pos hfile]
  obtain ⟨_, _, hsame, _⟩ := applyConfigFile_spec world d
  obtain ⟨_, hq⟩ := (quiet_frame world).refreshBoardInfo (applyConfig world d).2
  rw [configure, if_pos hconfig]
  rw [hallocated] at hconfig hq ⊢
  refine ⟨hq.present.trans ?_, hq.buffer.trans (allocate_ok world hconfig)⟩
  rw [allocate_present, hsame]
  simpa using hpresent

/-- A configured board in use recovers, whatever fails, as long as no reconnect attempt
before found the board closed to it, its file missing or no buffer to be had; and after
one that did it never recovers. -/
theorem recovers_iff {d₀ : CaenDigitizer} (hconfigured : (configure world d₀).1 = true)
    (uses : List Use) :
    KeepsTrying world (inUse world (configure world d₀).2 uses) ↔
      ∀ c ∈ made (configure world d₀).2 (inUse world (configure world d₀).2 uses),
        bufferLost c = false := by
  obtain ⟨hpresent, hbuffer⟩ := configure_ok world hconfigured
  have hholds := (Holds.refl hpresent hbuffer).inUse world uses
  rw [keepsTrying_iff world hholds.present, hholds.buffer]

/-- All goes well until the first read loses the link, and the attempt of the second read
finds the board closed to it; after that all is well again. -/
def unplugged (n : ℕ) : Reply := { code := if n = 24 ∨ n = 27 then -1 else 0 }

def broughtUp : CaenDigitizer :=
  (configure unplugged (openBoard unplugged { configPath := true }).2).2

theorem broughtUp_configured :
    (configure unplugged (openBoard unplugged { configPath := true }).2).1 = true := by
  decide +kernel

theorem recovers_iff_unplugged :
    KeepsTrying unplugged (inUse unplugged broughtUp [.start, .read]) ↔
      ∀ c ∈ made broughtUp (inUse unplugged broughtUp [.start, .read]), bufferLost c = false :=
  recovers_iff unplugged broughtUp_configured [.start, .read]

/-- After one attempt that could not open the board, the reads stop asking for it. -/
theorem gives_up_unplugged :
    (openBoard unplugged { configPath := true }).1 = true ∧
      (configure unplugged (openBoard unplugged { configPath := true }).2).1 = true ∧
      (start unplugged broughtUp).1 = true ∧
      ¬KeepsTrying unplugged (inUse unplugged broughtUp [.start, .read, .read]) := by
  refine ⟨by decide +kernel, broughtUp_configured, by decide +kernel, fun h => ?_⟩
  obtain ⟨r, hr⟩ := h.1 (by decide +kernel)
  have hnone : made (inUse unplugged broughtUp [.start, .read, .read])
      (CaenDigitizer.read unplugged (inUse unplugged broughtUp [.start, .read, .read])).2 = [] := by
    decide +kernel
  rw [hnone] at hr
  exact List.not_mem_nil hr

end Reconnect
end CaenDaq
