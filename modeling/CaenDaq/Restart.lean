import CaenDaq.Reconnect
import Mathlib.Data.List.DropRight

/-!
# Acquisition after a reconnect

A board that was opened anew does not acquire by itself: it has to be started, or armed
if it waits for the chain. The contacts with the board show whether that has happened
since it was last opened, and the reads are followed through any number of attempts.
-/

namespace CaenDaq
namespace Restart

open CaenDigitizer Reconnect

def opens (c : Contact × Reply) : Bool := c.1 = .openDigitizer && c.2.code = 0

/-- The contacts since the board was last opened. -/
def sinceOpened (cs : List (Contact × Reply)) : List (Contact × Reply) :=
  cs.rtakeWhile fun c => !opens c

def starts (c : Contact × Reply) : Bool := c.1 = .swStartAcquisition && c.2.code = 0

/-- A bit of the acquisition control that was set: the register is read and written
back at once. -/
def arms : Contact × Reply → Contact × Reply → Bool
  | (.readRegister a, r), (.writeRegister a' _, r') =>
    a = kRegAcquisitionControl && a' = kRegAcquisitionControl && r.code = 0 && r'.code = 0
  | _, _ => false

def armed : List (Contact × Reply) → Bool
  | [] => false
  | c :: cs => cs.head?.any (arms c) || armed cs

/-- The board was set going since it was last opened, in the way its start mode asks for. -/
def Acquiring (d : CaenDigitizer) : Prop :=
  (if d.synchronised then armed (sinceOpened d.calls) else (sinceOpened d.calls).any starts) = true

instance (d : CaenDigitizer) : Decidable (Acquiring d) := inferInstanceAs (Decidable (_ = true))

theorem sinceOpened_append {cs tail : List (Contact × Reply)} (h : ∀ c ∈ tail, opens c = false) :
    sinceOpened (cs ++ tail) = sinceOpened cs ++ tail := by
  have htail : ∀ c ∈ tail.reverse, (!opens c) = true := by
    intro c hc
    rw [h c (List.mem_reverse.mp hc)]
    rfl
  rw [sinceOpened, List.rtakeWhile, List.reverse_append, List.takeWhile_append_of_pos htail,
    List.reverse_append, List.reverse_reverse]
  rfl

theorem armed_append_left {cs : List (Contact × Reply)} (h : armed cs = true)
    (tail : List (Contact × Reply)) : armed (cs ++ tail) = true := by
  induction cs with
  | nil => exact absurd h Bool.false_ne_true
  | cons c cs ih =>
    rw [armed, Bool.or_eq_true] at h
    rw [List.cons_append, armed, Bool.or_eq_true]
    rcases h with hhead | hrest
    · left
      cases cs with
      | nil => exact absurd hhead Bool.false_ne_true
      | cons b cs => exact hhead
    · exact Or.inr (ih hrest)

theorem armed_append_right (cs : List (Contact × Reply)) {tail : List (Contact × Reply)}
    (h : armed tail = true) : armed (cs ++ tail) = true := by
  induction cs with
  | nil => exact h
  | cons c cs ih =>
    rw [List.cons_append, armed, ih, Bool.or_true]

/-- Further contacts that do not open the board do not stop it. -/
theorem Acquiring.append {d d' : CaenDigitizer} (h : Acquiring d)
    (hmode : d'.synchronised = d.synchronised) {tail : List (Contact × Reply)}
    (hcalls : d'.calls = d.calls ++ tail) (htail : ∀ c ∈ tail, opens c = false) :
    Acquiring d' := by
  unfold Acquiring at h ⊢
  rw [hmode, hcalls, sinceOpened_append htail]
  by_cases hsync : d.synchronised = true
  · rw [if_pos hsync] at h ⊢
    exact armed_append_left h tail
  · rw [if_neg hsync] at h ⊢
    rw [List.any_append, h, Bool.true_or]

theorem synchronised_congr {d d' : CaenDigitizer} (h : d'.info = d.info) :
    d'.synchronised = d.synchronised := by
  rw [synchronised, synchronised, startMode, startMode, h]

theorem acquiring_of_armed {d : CaenDigitizer} (hmode : d.synchronised = true)
    {cs tail : List (Contact × Reply)} (hcalls : d.calls = cs ++ tail)
    (htail : ∀ c ∈ tail, opens c = false) (harmed : armed tail = true) : Acquiring d := by
  unfold Acquiring
  rw [if_pos hmode, hcalls, sinceOpened_append htail]
  exact armed_append_right _ harmed

theorem acquiring_of_started {d : CaenDigitizer} (hmode : d.synchronised = false)
    {cs tail : List (Contact × Reply)} (hcalls : d.calls = cs ++ tail)
    (htail : ∀ c ∈ tail, opens c = false) (hstarted : tail.any starts = true) : Acquiring d := by
  unfold Acquiring
  rw [hmode, if_neg Bool.false_ne_true, hcalls, sinceOpened_append htail, List.any_append,
    hstarted, Bool.or_true]

/-- Steps that go on with the board as it was opened. -/
structure Onward (d d' : CaenDigitizer) : Prop where
  calls : ∃ cs, d'.calls = d.calls ++ cs ∧ ∀ c ∈ cs, opens c = false
  running : d'.running = d.running
  active : d'.isActive = true → d.isActive = true

theorem Onward.refl (d : CaenDigitizer) : Onward d d :=
  ⟨⟨[], by simp⟩, rfl, id⟩

theorem Onward.trans {d₁ d₂ d₃ : CaenDigitizer} (h : Onward d₁ d₂) (h' : Onward d₂ d₃) :
    Onward d₁ d₃ := by
  obtain ⟨cs, hcalls, hcs⟩ := h.calls
  obtain ⟨cs', hcalls', hcs'⟩ := h'.calls
  refine ⟨⟨cs ++ cs', ?_, List.forall_mem_append.mpr ⟨hcs, hcs'⟩⟩,
    h'.running.trans h.running, fun hactive => h.active (h'.active hactive)⟩
  rw [hcalls', hcalls, List.append_assoc]

theorem Onward.clearError (d : CaenDigitizer) : Onward d (CaenDigitizer.clearError d) :=
  ⟨⟨[], by simp [CaenDigitizer.clearError]⟩, rfl, id⟩

theorem Onward.emitError (error : ℤ) (d : CaenDigitizer) :
    Onward d (CaenDigitizer.emitError error d) := by
  refine ⟨⟨[], by simp [CaenDigitizer.emitError]⟩, rfl, fun hactive => ?_⟩
  rw [CaenDigitizer.emitError, Bool.and_eq_true] at hactive
  exact hactive.1

theorem Onward.info (d : CaenDigitizer) (info : BoardInfo) : Onward d { d with info := info } :=
  ⟨⟨[], by simp⟩, rfl, id⟩

variable (world : ℕ → Reply)

theorem contact_onward {c : Contact} (hc : c ≠ .openDigitizer) (d : CaenDigitizer) :
    Onward d (contact world c d).2 := by
  refine ⟨⟨[(c, world d.calls.length)], rfl, ?_⟩, rfl, id⟩
  rw [List.forall_mem_singleton, opens, decide_eq_false hc, Bool.false_and]

theorem drive_onward {c : Contact} (hc : c ≠ .openDigitizer) (d : CaenDigitizer) :
    Onward d (drive world c d).2 := by
  unfold drive
  dsimp only
  split
  · exact (contact_onward world hc d).trans (Onward.emitError _ _)
  · exact contact_onward world hc d

theorem onward_frame : Frame world Onward where
  refl := Onward.refl
  trans _ _ _ h h' := h.trans h'
  cleared := Onward.clearError
  informed := Onward.info
  driven c d hc := drive_onward world (by rintro rfl; cases hc) d

theorem driverConfigureFromFile_onward (d : CaenDigitizer) :
    Onward d (driverConfigureFromFile world d) := by
  obtain ⟨hcalls, hrunning, hactive⟩ :=
    drive_onward world (c := .configureFromFile) (by simp) d
  refine ⟨hcalls, hrunning, fun h => hactive ?_⟩
  rw [driverConfigureFromFile, Bool.and_eq_true] at h
  exact h.1

theorem applyConfigFile_onward (d : CaenDigitizer) : Onward d (applyConfigFile world d).2 := by
  by_cases hpath : d.configPath = true
  · have hload := contact_onward world (c := .loadDump) (by simp) d
    cases hdump : (contact world .loadDump d).1.dump with
    | some entries =>
      rw [applyConfigFile_dump world hpath hdump]
      exact hload.trans ((onward_frame world).writeDump entries _)
    | none =>
      rw [applyConfigFile_driver world hpath hdump]
      exact hload.trans ((Onward.clearError _).trans (driverConfigureFromFile_onward world _))
  · rw [applyConfigFile, if_neg hpath]
    exact Onward.refl d

theorem release_running (d : CaenDigitizer) : (release world d).running = d.running := by
  unfold release driverDeactivate
  split
  · exact (drive_onward world (by simp) _).running.trans
      (drive_onward world (c := .freeReadoutBuffer) (by simp) d).running
  · exact (drive_onward world (by simp) _).running

theorem activate_running (d : CaenDigitizer) : (activate world d).2.running = d.running := by
  have hdriver : ∀ d : CaenDigitizer, (driverActivate world d).running = d.running := by
    intro d
    unfold driverActivate
    split
    · rfl
    · rfl
  unfold activate
  dsimp only
  split
  · exact hdriver _
  · exact ((onward_frame world).refreshBoardInfo _).running.trans (hdriver _)

theorem drive_info (c : Contact) (d : CaenDigitizer) : (drive world c d).2.info = d.info := by
  unfold drive
  dsimp only
  split
  · rfl
  · rfl

theorem driverStart_answer (d : CaenDigitizer) : (drive world .swStartAcquisition
    (drive world .clearData (CaenDigitizer.clearError d)).2).1 = world (d.calls.length + 1) := by
  show world (drive world .clearData (CaenDigitizer.clearError d)).2.calls.length = _
  rw [(drive_fields world .clearData (CaenDigitizer.clearError d)).1, List.length_append,
    List.length_singleton]
  rfl

theorem driverStart_calls (d : CaenDigitizer) :
    (driverStart world d).calls = d.calls ++ [(.clearData, world d.calls.length),
      (.swStartAcquisition, world (d.calls.length + 1))] := by
  have hclear := (drive_fields world .clearData (CaenDigitizer.clearError d)).1
  have hstart := (drive_fields world .swStartAcquisition
    (drive world .clearData (CaenDigitizer.clearError d)).2).1
  rw [driverStart_answer, hclear, List.append_assoc] at hstart
  exact hstart

theorem driverStart_info (d : CaenDigitizer) : (driverStart world d).info = d.info :=
  (drive_info world _ _).trans (drive_info world _ _)

theorem driverStart_acquires {d : CaenDigitizer} (hmode : d.synchronised = false)
    (hcode : (world (d.calls.length + 1)).code = 0) : Acquiring (driverStart world d) := by
  have hsync := (synchronised_congr (driverStart_info world d)).trans hmode
  refine acquiring_of_started hsync (driverStart_calls world d) ?_ ?_
  · simp [opens]
  · simp [starts, hcode]

theorem driverStart_code {d : CaenDigitizer} (h : (driverStart world d).errcode = 0) :
    (world (d.calls.length + 1)).code = 0 := by
  have herr := (drive_fields world .swStartAcquisition
    (drive world .clearData (CaenDigitizer.clearError d)).2).2.2.2
  by_contra hcode
  rw [driverStart_answer, if_pos hcode] at herr
  exact hcode (herr.symm.trans h)

theorem setRegisterSpecificBits_info (address lower upper value : ℕ) (d : CaenDigitizer) :
    (setRegisterSpecificBits world address lower upper value d).info = d.info := by
  unfold setRegisterSpecificBits
  dsimp only
  split
  · rfl
  · exact drive_info world _ _

theorem setRegisterSpecificBits_calls {address lower upper value : ℕ} {d : CaenDigitizer}
    (h : (setRegisterSpecificBits world address lower upper value d).errcode = 0) :
    ∃ v r r', r.code = 0 ∧ r'.code = 0 ∧
      (setRegisterSpecificBits world address lower upper value d).calls =
        d.calls ++ [(.readRegister address, r), (.writeRegister address v, r')] := by
  unfold setRegisterSpecificBits at h ⊢
  dsimp only at h ⊢
  by_cases hread : (contact world (.readRegister address) d).1.code ≠ 0
  · rw [if_pos hread] at h
    exact absurd h hread
  · rw [if_neg hread] at h ⊢
    generalize BitVec.ofNat 32 (((contact world (.readRegister address) d).1.value.toNat &&&
      2 ^ 32 - 1 - (2 ^ (upper + 1) - 2 ^ lower)) + value <<< lower) = v at h ⊢
    obtain ⟨hcalls, _, _, herr⟩ := drive_fields world (.writeRegister address v)
      (contact world (.readRegister address) d).2
    generalize (drive world (.writeRegister address v)
      (contact world (.readRegister address) d).2).1 = r' at hcalls herr
    refine ⟨v, (contact world (.readRegister address) d).1, r', not_not.mp hread, ?_, ?_⟩
    · by_contra hwrite
      rw [if_pos hwrite] at herr
      exact hwrite (herr.symm.trans h)
    · rw [hcalls, contact, List.append_assoc]
      rfl

theorem arm_acquires {d : CaenDigitizer} (hmode : d.synchronised = true)
    (h : (arm world d).1 = true) :
    Acquiring (arm world d).2 ∧ (arm world d).2.running = true := by
  have hpresent : ¬(!d.present) = true := by
    intro habsent
    rw [arm, if_pos habsent] at h
    exact absurd h Bool.false_ne_true
  rw [arm, if_neg hpresent] at h ⊢
  dsimp only at h ⊢
  by_cases herr : (setRegisterSpecificBits world kRegAcquisitionControl 2 2 1
      (drive world .clearData (CaenDigitizer.clearError d)).2).errcode ≠ 0
  · rw [if_pos herr] at h
    exact absurd h Bool.false_ne_true
  · have hinfo := (setRegisterSpecificBits_info world kRegAcquisitionControl 2 2 1
      (drive world .clearData (CaenDigitizer.clearError d)).2).trans (drive_info world _ _)
    obtain ⟨v, r, r', hr, hr', hcalls⟩ := setRegisterSpecificBits_calls world (not_not.mp herr)
    rw [if_neg herr]
    refine ⟨acquiring_of_armed ((synchronised_congr hinfo).trans hmode) hcalls ?_ ?_, rfl⟩
    · simp [opens]
    · simp [armed, arms, hr, hr']

theorem arm_of_answers {d : CaenDigitizer} (hpresent : d.present = true)
    (h : ∀ k < 3, (world (d.calls.length + k)).code = 0) : (arm world d).1 = true := by
  have hclear := h 0 (by decide)
  have hread := h 1 (by decide)
  have hwrite := h 2 (by decide)
  rw [Nat.add_zero] at hclear
  simp [arm, hpresent, setRegisterSpecificBits, drive, contact, CaenDigitizer.clearError, hclear,
    hread, hwrite]

/-- A board whose reads can go on is taken to be running, and while it is connected it
acquires. -/
def Kept (d : CaenDigitizer) : Prop :=
  d.readoutBuffer = true → d.running = true ∧ (d.isActive = true → Acquiring d)

def reopened (d : CaenDigitizer) : CaenDigitizer := (activate world (release world d)).2

def reprogrammed (d : CaenDigitizer) : CaenDigitizer := (applyConfigFile world (reopened world d)).2

/-- The board as it stands before it is started or armed again. -/
def restored (d : CaenDigitizer) : CaenDigitizer :=
  refreshBoardInfo world (applyConfig world (reopened world d)).2

/-- The allocation is not refused with a buffer handed out over a link that stays up. -/
def Allocates (d : CaenDigitizer) : Prop :=
  (world d.calls.length).code ≠ 0 → (world d.calls.length).buffer = true →
    dropsConnection (world d.calls.length).code = true ∨ d.isActive = false

/-- The arm is taken call by call; the software start is taken, or the link goes down with
it. -/
def Resumes (d : CaenDigitizer) : Prop :=
  if d.synchronised then ∀ k < 3, (world (d.calls.length + k)).code = 0
  else (world (d.calls.length + 1)).code = 0 ∨ d.isActive = false ∨
    ∃ k < 2, dropsConnection (world (d.calls.length + k)).code = true

/-- An attempt that opens the board gets past the two places where it can stop half-way. -/
def Completes (d : CaenDigitizer) : Prop :=
  d.present = true → d.readoutBuffer = true → d.isActive = false →
    (activate world (release world d)).1 = true →
      ((applyConfigFile world (reopened world d)).1 = true →
        Allocates world (reprogrammed world d)) ∧
      ((applyConfig world (reopened world d)).1 = true → Resumes world (restored world d))

instance (d : CaenDigitizer) : Decidable (Allocates world d) :=
  inferInstanceAs (Decidable (_ → _ → _))

instance (d : CaenDigitizer) : Decidable (Resumes world d) :=
  inferInstanceAs (Decidable (if d.synchronised then
    ∀ k < 3, (world (d.calls.length + k)).code = 0
    else (world (d.calls.length + 1)).code = 0 ∨ d.isActive = false ∨
      ∃ k < 2, dropsConnection (world (d.calls.length + k)).code = true))

instance (d : CaenDigitizer) : Decidable (Completes world d) :=
  inferInstanceAs (Decidable (_ → _ → _ → _ → _ ∧ _))

variable {world}

theorem Kept.onward {d d' : CaenDigitizer} (h : Kept d) (ho : Onward d d')
    (hbuffer : d'.readoutBuffer = d.readoutBuffer) (hinfo : d'.info = d.info) : Kept d' := by
  intro hb
  obtain ⟨hrunning, hacquiring⟩ := h (hbuffer.symm.trans hb)
  obtain ⟨tail, hcalls, htail⟩ := ho.calls
  exact ⟨ho.running.trans hrunning, fun hactive =>
    (hacquiring (ho.active hactive)).append (synchronised_congr hinfo) hcalls htail⟩

theorem driverStart_drops {d : CaenDigitizer} (h : d.isActive = false ∨
    ∃ k < 2, dropsConnection (world (d.calls.length + k)).code = true) :
    (driverStart world d).isActive = false := by
  have hdrop : ∀ (c : Contact) (d : CaenDigitizer),
      dropsConnection (world d.calls.length).code = true →
        (drive world c d).2.isActive = false := by
    intro c d hcode
    have herr : (world d.calls.length).code ≠ 0 := by
      intro hzero
      rw [hzero] at hcode
      exact absurd hcode (by decide)
    rw [drive, contact, if_pos herr, emitError]
    simp [hcode]
  rcases h with hdown | ⟨k, hk, hcode⟩
  · exact drive_inactive world _ (drive_inactive world _ hdown)
  · obtain rfl | rfl : k = 0 ∨ k = 1 := by omega
    · exact drive_inactive world _ (hdrop .clearData (CaenDigitizer.clearError d) hcode)
    · apply hdrop
      rw [(drive_fields world .clearData (CaenDigitizer.clearError d)).1, List.length_append]
      exact hcode

theorem resume_acquires {d : CaenDigitizer} (hpresent : d.present = true)
    (hrunning : d.running = true) (h : Resumes world d) :
    (resume world d).2.running = true ∧
      ((resume world d).2.isActive = true → Acquiring (resume world d).2) ∧
      ((resume world d).1 = true → Acquiring (resume world d).2) := by
  unfold Resumes at h
  unfold resume
  rw [if_pos hrunning]
  by_cases hsync : d.synchronised = true
  · rw [if_pos hsync] at h ⊢
    have hok : (arm world { d with running := false }).1 = true :=
      arm_of_answers world hpresent h
    obtain ⟨hacquires, hruns⟩ := arm_acquires world (d := { d with running := false }) hsync hok
    exact ⟨hruns, fun _ => hacquires, fun _ => hacquires⟩
  · rw [if_neg hsync] at h ⊢
    have hacquires := driverStart_acquires world (eq_false_of_ne_true hsync)
    have hruns := ((onward_frame world).driverStart d).running.trans hrunning
    refine ⟨hruns, fun hactive => ?_, fun hok => ?_⟩
    · rcases h with hcode | hdrops
      · exact hacquires hcode
      · exact absurd hactive (by simp [driverStart_drops hdrops])
    · exact hacquires (driverStart_code world (of_decide_eq_true hok))

theorem allocate_kept {d : CaenDigitizer} (hbuffer : d.readoutBuffer = false)
    (h : Allocates world d) :
    (allocate world d).2.running = d.running ∧
      ((allocate world d).1 = false → (allocate world d).2.readoutBuffer = true →
        (allocate world d).2.isActive = false) := by
  have hno : ¬d.readoutBuffer = true := by simp [hbuffer]
  have honward := (Onward.clearError d).trans (drive_onward world (c := .mallocReadoutBuffer)
    (by simp) (CaenDigitizer.clearError d))
  simp only [allocate, if_neg hno]
  refine ⟨honward.running, fun hfailed hout => ?_⟩
  have hanswer : (drive world .mallocReadoutBuffer (CaenDigitizer.clearError d)).1 =
    world d.calls.length := rfl
  rw [hanswer] at hout
  by_cases hcode : (world d.calls.length).code = 0
  · rw [(drive_fields world .mallocReadoutBuffer (CaenDigitizer.clearError d)).2.2.2, hanswer,
      if_neg (not_not.mpr hcode), hout] at hfailed
    exact absurd hfailed (by simp [CaenDigitizer.clearError])
  · rcases h hcode hout with hdrops | hdown
    · have hlength : (CaenDigitizer.clearError d).calls.length = d.calls.length := rfl
      simp [drive, contact, hlength, hcode, emitError, hdrops]
    · exact drive_inactive world _ hdown

theorem kept_of_no_buffer {d : CaenDigitizer} (h : d.readoutBuffer = false) : Kept d :=
  fun hb => absurd (h.symm.trans hb) Bool.false_ne_true

theorem applyConfig_kept {d : CaenDigitizer} (hpresent : d.present = true)
    (hbuffer : d.readoutBuffer = false)
    (h : (applyConfigFile world d).1 = true → Allocates world (applyConfigFile world d).2) :
    (applyConfig world d).2.running = d.running ∧
      ((applyConfig world d).1 = false → (applyConfig world d).2.readoutBuffer = true →
        (applyConfig world d).2.isActive = false) := by
  have habsent : ¬(!d.present) = true := by simp [hpresent]
  obtain ⟨_, _, _, hsame, _⟩ := applyConfigFile_spec world d
  have hrunning := (applyConfigFile_onward world d).running
  rw [applyConfig, if_neg habsent]
  dsimp only
  by_cases hfile : (applyConfigFile world d).1 = true
  · rw [if_pos hfile]
    obtain ⟨hruns, hlost⟩ := allocate_kept (hsame.trans hbuffer) (h hfile)
    exact ⟨hruns.trans hrunning, hlost⟩
  · rw [if_neg hfile]
    refine ⟨hrunning, fun _ hb => ?_⟩
    exact absurd ((hsame.trans hbuffer).symm.trans hb) Bool.false_ne_true

theorem reconnect_kept {d : CaenDigitizer} (hpresent : d.present = true)
    (hbuffer : d.readoutBuffer = true) (hdown : d.isActive = false) (hrunning : d.running = true)
    (h : Completes world d) :
    Kept (reconnect world d).2 ∧
      ((reconnect world d).1 = true → Acquiring (reconnect world d).2) := by
  obtain ⟨_, _, _, _, hreleased, hclosed⟩ := release_spec world d
  obtain ⟨_, _, _, _, hopened, hempty, _⟩ := activate_spec world hclosed
  have hstill : (activate world (release world d)).2.running = true :=
    (activate_running world _).trans ((release_running world d).trans hrunning)
  unfold reconnect
  rw [if_pos hpresent]
  dsimp only
  by_cases hactivated : (activate world (release world d)).1 = true
  · rw [if_pos hactivated]
    obtain ⟨hallocates, hresumes⟩ := h hpresent hbuffer hdown hactivated
    obtain ⟨hruns, hlost⟩ := applyConfig_kept hopened (hempty.trans hreleased) hallocates
    by_cases hconfig : (applyConfig world (activate world (release world d)).2).1 = true
    · rw [if_pos hconfig]
      obtain ⟨_, _, hpresent₂, _⟩ := applyConfig_spec world hopened (hempty.trans hreleased)
      obtain ⟨_, hq⟩ := (quiet_frame world).refreshBoardInfo
        (applyConfig world (activate world (release world d)).2).2
      have hrefreshed := ((onward_frame world).refreshBoardInfo
        (applyConfig world (activate world (release world d)).2).2).running
      obtain ⟨hruns', hacquires, hresumed⟩ := resume_acquires (hq.present.trans hpresent₂)
        (hrefreshed.trans (hruns.trans hstill)) (hresumes hconfig)
      exact ⟨fun _ => ⟨hruns', hacquires⟩, hresumed⟩
    · rw [if_neg hconfig]
      refine ⟨fun hb => ⟨hruns.trans hstill, fun hactive => ?_⟩,
        fun hok => absurd hok Bool.false_ne_true⟩
      exact absurd ((hlost (eq_false_of_ne_true hconfig) hb).symm.trans hactive)
        Bool.false_ne_true
  · rw [if_neg hactivated]
    exact ⟨kept_of_no_buffer (hempty.trans hreleased), fun hok => absurd hok Bool.false_ne_true⟩

/-- The connection is there, or it is brought back: the board acquires where a read goes on
to the data. -/
theorem connection_kept {d : CaenDigitizer} (h : Kept d) (hpresent : d.present = true)
    (hbuffer : d.readoutBuffer = true) (hc : Completes world d) :
    Kept (if d.connected then (true, d) else reconnect world d).2 ∧
      ((if d.connected then (true, d) else reconnect world d).1 = true →
        Acquiring (if d.connected then (true, d) else reconnect world d).2) := by
  obtain ⟨hrunning, hacquiring⟩ := h hbuffer
  by_cases hconnected : d.connected = true
  · rw [if_pos hconnected]
    rw [connected, Bool.and_eq_true] at hconnected
    exact ⟨h, fun _ => hacquiring hconnected.2⟩
  · rw [if_neg hconnected]
    rw [connected, hpresent, Bool.true_and] at hconnected
    exact reconnect_kept hpresent hbuffer (eq_false_of_ne_true hconnected) hrunning hc

/-- One read: what is kept of the acquisition, and what a read that delivers shows. -/
theorem Kept.read {d : CaenDigitizer} (h : Kept d) (hc : Completes world d) :
    Kept (CaenDigitizer.read world d).2 ∧
      ((CaenDigitizer.read world d).1.isSome = true →
        Acquiring (CaenDigitizer.read world d).2) := by
  by_cases hguard : (!d.present || !d.readoutBuffer) = true
  · rw [CaenDigitizer.read, if_pos hguard]
    exact ⟨h, fun hsome => absurd hsome Bool.false_ne_true⟩
  · rw [CaenDigitizer.read, if_neg hguard]
    simp only [Bool.or_eq_true, Bool.not_eq_true', not_or, Bool.not_eq_false] at hguard
    obtain ⟨hkept, hacquires⟩ := connection_kept h hguard.1 hguard.2 hc
    dsimp only
    generalize (if d.connected then (true, d) else reconnect world d) = r at hkept hacquires ⊢
    by_cases hok : r.1 = true
    · rw [if_pos hok]
      have honward := drive_onward world (c := .readData) (by simp)
        { CaenDigitizer.clearError r.2 with bufferSize := 0 }
      have hinfo := drive_info world .readData { CaenDigitizer.clearError r.2 with bufferSize := 0 }
      have hbuffer' := (drive_fields world .readData
        { CaenDigitizer.clearError r.2 with bufferSize := 0 }).2.2.1
      generalize drive world .readData { CaenDigitizer.clearError r.2 with bufferSize := 0 } = s
        at honward hinfo hbuffer' ⊢
      have hon : Onward r.2 { s.2 with bufferSize := s.1.value.toNat } :=
        ⟨honward.calls, honward.running, honward.active⟩
      obtain ⟨tail, hcalls, htail⟩ := hon.calls
      have hread : Acquiring { s.2 with bufferSize := s.1.value.toNat } :=
        (hacquires hok).append (synchronised_congr hinfo) hcalls htail
      have hafter : Kept { s.2 with bufferSize := s.1.value.toNat } :=
        hkept.onward hon hbuffer' hinfo
      split
      · exact ⟨hafter, fun hsome => absurd hsome Bool.false_ne_true⟩
      · exact ⟨hafter, fun _ => hread⟩
    · rw [if_neg hok]
      exact ⟨hkept, fun hsome => absurd hsome Bool.false_ne_true⟩

inductive Launch
  | start | arm
  deriving DecidableEq, Repr

variable (world)

def launch (d : CaenDigitizer) : Launch → Bool × CaenDigitizer
  | .start => start world d
  | .arm => arm world d

/-- A board that waits for the chain is armed, any other is started. -/
def Suits (d : CaenDigitizer) (l : Launch) : Prop := l = .arm ↔ d.synchronised = true

instance (d : CaenDigitizer) (l : Launch) : Decidable (Suits d l) :=
  inferInstanceAs (Decidable (_ ↔ _))

def reads (d : CaenDigitizer) : ℕ → CaenDigitizer
  | 0 => d
  | n + 1 => (read world (reads d n)).2

theorem launch_acquires {d : CaenDigitizer} {l : Launch} (hsuits : Suits d l)
    (h : (launch world d l).1 = true) : Kept (launch world d l).2 := by
  intro _
  cases l with
  | start =>
    have hsync : d.synchronised = false := by
      refine eq_false_of_ne_true fun hmode => ?_
      exact absurd (hsuits.mpr hmode) (by decide)
    simp only [launch, start] at h ⊢
    by_cases hpresent : (!d.present) = true
    · rw [if_pos hpresent] at h
      exact absurd h Bool.false_ne_true
    · rw [if_neg hpresent] at h ⊢
      by_cases herr : (driverStart world d).errcode ≠ 0
      · rw [if_pos herr] at h
        exact absurd h Bool.false_ne_true
      · rw [if_neg herr]
        exact ⟨rfl, fun _ => driverStart_acquires world hsync
          (driverStart_code world (not_not.mp herr))⟩
  | arm =>
    obtain ⟨hacquires, hruns⟩ := arm_acquires world (hsuits.mp rfl) h
    exact ⟨hruns, fun _ => hacquires⟩

theorem reads_kept {d : CaenDigitizer} (h : Kept d) {n : ℕ}
    (hcompletes : ∀ k < n, Completes world (reads world d k)) : Kept (reads world d n) := by
  induction n with
  | zero => exact h
  | succ n ih =>
    have hbefore : Kept (reads world d n) := ih fun k hk => hcompletes k (by omega)
    exact (hbefore.read (hcompletes n (Nat.lt_succ_self n))).1

/-- Of a board that was set going, a read that delivers shows that it was set going since
it was last opened, if every attempt that opened it got past its half-way places. -/
theorem read_acquiring {d₀ : CaenDigitizer} {l : Launch} (hsuits : Suits d₀ l)
    (hlaunched : (launch world d₀ l).1 = true) (n : ℕ)
    (hcompletes : ∀ k ≤ n, Completes world (reads world (launch world d₀ l).2 k))
    (hdelivers : (CaenDigitizer.read world (reads world (launch world d₀ l).2 n)).1.isSome = true) :
    Acquiring (CaenDigitizer.read world (reads world (launch world d₀ l).2 n)).2 := by
  have hkept := reads_kept world (launch_acquires world hsuits hlaunched) (n := n)
    fun k hk => hcompletes k (Nat.le_of_lt hk)
  exact (hkept.read (hcompletes n le_rfl)).2 hdelivers

/-- The link is lost in the first read and comes back at once. The board waits for the
chain. -/
def interrupted (n : ℕ) : Reply := { code := if n = 25 then -1 else 0, value := 1 }

/-- The same, but the board does not take the arm of the reconnect. -/
def refused (n : ℕ) : Reply :=
  { code := if n = 25 then -1 else if n = 52 then -2 else 0, value := 1 }

def broughtUp (world : ℕ → Reply) : CaenDigitizer :=
  (configure world (openBoard world { configPath := true }).2).2

/-- The second read reconnects, arms the board and delivers. -/
theorem read_acquiring_interrupted :
    (broughtUp interrupted).synchronised = true ∧
      Acquiring (CaenDigitizer.read interrupted
        (reads interrupted (launch interrupted (broughtUp interrupted) .arm).2 1)).2 := by
  refine ⟨by decide +kernel, ?_⟩
  have hsuits : Suits (broughtUp interrupted) .arm := by decide +kernel
  exact read_acquiring interrupted hsuits (by decide +kernel) 1 (by decide +kernel)
    (by decide +kernel)

/-- The second read fails for the refused arm, the third delivers from a board that is
idle. -/
theorem read_idle_refused :
    (openBoard refused { configPath := true }).1 = true ∧
      (configure refused (openBoard refused { configPath := true }).2).1 = true ∧
      Suits (broughtUp refused) .arm ∧ (launch refused (broughtUp refused) .arm).1 = true ∧
      (CaenDigitizer.read refused
        (reads refused (launch refused (broughtUp refused) .arm).2 2)).1.isSome = true ∧
      ¬Acquiring (CaenDigitizer.read refused
        (reads refused (launch refused (broughtUp refused) .arm).2 2)).2 := by
  decide +kernel

end Restart
end CaenDaq
