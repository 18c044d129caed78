import Mathlib.Algebra.Order.Ring.Nat
import Mathlib.Data.List.Infix
import Mathlib.Tactic.Common

/-!
# Event layouts of the supported digitizer families

The vendored format tables and `DataFrame`: which bits of the data format word
switch which words of an event on, and the layout the unpackers walk with. The
three maps the builders fill are keyed by inductive names here, and a builder is
the choice of its tables by firmware and model name.
-/

namespace CaenDaq

/-- One 32-bit word of a readout buffer. -/
abbrev Word := BitVec 32

/-- Lowest and highest bit of a field, both ends included. -/
abbrev BitRange := ℕ × ℕ

def rangeWidth (range : BitRange) : ℕ := range.2 - range.1 + 1

def extractBits (word : Word) (range : BitRange) : ℕ :=
  let width := rangeWidth range
  if 32 ≤ width then word.toNat >>> range.1
  else (word.toNat >>> range.1) &&& (2 ^ width - 1)

def bitAt (word : Word) (i : ℕ) : Bool := (word.toNat >>> i) &&& 1 = 1

theorem extractBits_eq {word : Word} {range : BitRange} (h : range.2 < 32) :
    extractBits word range = word.toNat / 2 ^ range.1 % 2 ^ rangeWidth range := by
  unfold extractBits
  dsimp only
  split
  · rename_i hw
    have hlo : range.1 = 0 := by unfold rangeWidth at hw; omega
    have hwidth : rangeWidth range = 32 := by unfold rangeWidth at hw ⊢; omega
    rw [hlo, hwidth, Nat.shiftRight_zero, Nat.pow_zero, Nat.div_one, Nat.mod_eq_of_lt word.isLt]
  · rw [Nat.and_two_pow_sub_one_eq_mod, Nat.shiftRight_eq_div_pow]

theorem extractBits_lt {word : Word} {range : BitRange} (h : range.2 < 32) :
    extractBits word range < 2 ^ rangeWidth range := by
  rw [extractBits_eq h]
  exact Nat.mod_lt _ (Nat.two_pow_pos _)

theorem bitAt_eq (word : Word) (i : ℕ) : bitAt word i = decide (word.toNat / 2 ^ i % 2 = 1) := by
  rw [bitAt, Nat.and_one_is_mod, Nat.shiftRight_eq_div_pow]

namespace DataFrame

inductive Firmware
  | pha | psd
  deriving DecidableEq, Repr

inductive FlagKey
  | DT | Energy | Charge | TS | Extras | Trace | EP | EET
  deriving DecidableEq, Repr

inductive ConfigKey
  | Extras | AnaProbe | AnaProbe1 | AnaProbe2 | DigProbe | DigProbe1 | DigProbe2 | DigProbe3
  | DigProbe4 | TrgMd | NumSamples
  deriving DecidableEq, Repr

inductive FormatKey
  | Size | Energy | Charge1 | Charge2 | Extras | TS | CH | RO | Sample | DP | TR | DP1 | DP2 | DP3
  | DP4
  deriving DecidableEq, Repr

def nameHas (name code : String) : Bool := decide (code.toList <:+: name.toList)

def isX730Family (name : String) : Bool := nameHas name "730" || nameHas name "725"

def isX724Family (name : String) : Bool :=
  nameHas name "724" || nameHas name "781" || nameHas name "782"

def isX720Family (name : String) : Bool := nameHas name "720"

/-- The four tables the two builders distinguish, and none for an unknown model. -/
inductive Tables
  | phaX730 | phaX724 | psdX730 | psdX720 | none
  deriving DecidableEq, Repr

def tables (dpp : Firmware) (name : String) : Tables :=
  match dpp with
  | .pha => if isX730Family name then .phaX730 else if isX724Family name then .phaX724 else .none
  | .psd => if isX730Family name then .psdX730 else if isX720Family name then .psdX720 else .none

def produceNumSamples : Tables → ℕ
  | .phaX730 => 8
  | .phaX724 => 2
  | .psdX730 => 8
  | .psdX720 => 8
  | .none => 0

def produceFlags : Tables → FlagKey → Option ℕ
  | .phaX730, .DT => some 31
  | .phaX730, .Energy => some 30
  | .phaX730, .TS => some 29
  | .phaX730, .Extras => some 28
  | .phaX730, .Trace => some 27
  | .phaX724, .DT => some 31
  | .phaX724, .Trace => some 30
  | .phaX724, .Energy => some 29
  | .phaX724, .TS => some 28
  | .psdX730, .DT => some 31
  | .psdX730, .Charge => some 30
  | .psdX730, .TS => some 29
  | .psdX730, .Extras => some 28
  | .psdX730, .Trace => some 27
  | .psdX720, .DT => some 31
  | .psdX720, .Charge => some 30
  | .psdX720, .TS => some 29
  | .psdX720, .Extras => some 28
  | .psdX720, .Trace => some 27
  | .psdX720, .EP => some 26
  | .psdX720, .EET => some 22
  | _, _ => none

def produceConfigs : Tables → ConfigKey → Option BitRange
  | .phaX730, .Extras => some (24, 26)
  | .phaX730, .AnaProbe1 => some (22, 23)
  | .phaX730, .AnaProbe2 => some (20, 21)
  | .phaX730, .DigProbe => some (16, 19)
  | .phaX730, .NumSamples => some (0, 15)
  | .phaX724, .AnaProbe => some (22, 23)
  | .phaX724, .DigProbe1 => some (20, 21)
  | .phaX724, .DigProbe2 => some (16, 19)
  | .phaX724, .NumSamples => some (0, 15)
  | .psdX730, .Extras => some (24, 26)
  | .psdX730, .AnaProbe => some (22, 23)
  | .psdX730, .DigProbe1 => some (16, 18)
  | .psdX730, .DigProbe2 => some (19, 21)
  | .psdX730, .NumSamples => some (0, 15)
  | .psdX720, .TrgMd => some (24, 25)
  | .psdX720, .DigProbe3 => some (19, 21)
  | .psdX720, .DigProbe4 => some (16, 18)
  | .psdX720, .NumSamples => some (0, 11)
  | _, _ => none

def produceFormats : Tables → FormatKey → Option BitRange
  | .phaX730, .Size => some (0, 30)
  | .phaX730, .Energy => some (0, 14)
  | .phaX730, .Extras => some (16, 20)
  | .phaX730, .TS => some (0, 30)
  | .phaX730, .CH => some (31, 31)
  | .phaX730, .Sample => some (0, 13)
  | .phaX730, .DP1 => some (14, 14)
  | .phaX730, .DP2 => some (15, 15)
  | .phaX724, .Size => some (0, 20)
  | .phaX724, .Energy => some (0, 14)
  | .phaX724, .Extras => some (16, 23)
  | .phaX724, .TS => some (0, 29)
  | .phaX724, .RO => some (31, 31)
  | .phaX724, .Sample => some (0, 13)
  | .phaX724, .DP1 => some (14, 14)
  | .phaX724, .DP2 => some (15, 15)
  | .psdX730, .Size => some (0, 21)
  | .psdX730, .Charge1 => some (0, 14)
  | .psdX730, .Charge2 => some (16, 31)
  | .psdX730, .Extras => some (0, 31)
  | .psdX730, .TS => some (0, 30)
  | .psdX730, .CH => some (31, 31)
  | .psdX730, .Sample => some (0, 13)
  | .psdX730, .DP1 => some (14, 14)
  | .psdX730, .DP2 => some (15, 15)
  | .psdX720, .Size => some (0, 23)
  | .psdX720, .Charge1 => some (0, 14)
  | .psdX720, .Charge2 => some (16, 31)
  | .psdX720, .Extras => some (0, 31)
  | .psdX720, .TS => some (0, 31)
  | .psdX720, .Sample => some (0, 11)
  | .psdX720, .DP1 => some (12, 12)
  | .psdX720, .DP2 => some (13, 13)
  | .psdX720, .DP3 => some (14, 14)
  | .psdX720, .DP4 => some (15, 15)
  | _, _ => none

/-- Everything the unpackers need to walk through one channel aggregate. -/
structure DataLayout where
  evtSize : ℕ := 0
  numSamples : ℕ := 0
  dualTrace : Bool := false
  hasTrace : Bool := false
  hasTS : Bool := false
  hasEnergy : Bool := false
  hasCharge : Bool := false
  hasExtras : Bool := false
  hasChannelBit : Bool := false
  extrasConfig : Bool := false
  extrasMode : ℕ := 0
  fmtTS : BitRange := (0, 30)
  fmtExtras : BitRange := (0, 31)
  fmtSample : BitRange := (0, 13)
  fmtDP1 : BitRange := (14, 14)
  fmtDP2 : BitRange := (15, 15)
  tsBits : ℕ := 31
  resTS : Word := 0
  resEnergy : Word := 0
  deriving DecidableEq, Repr

def enabled (t : Tables) (form : Word) (key : FlagKey) : Bool :=
  match produceFlags t key with
  | some i => bitAt form i
  | none => false

/-- A field of the data format word as the 16-bit value the source keeps of it. -/
def config (t : Tables) (form : Word) (key : ConfigKey) : ℕ :=
  match produceConfigs t key with
  | some range =>
    if key = .NumSamples then extractBits form range * produceNumSamples t % 2 ^ 16
    else extractBits form range % 2 ^ 16
  | none => 0

def format (t : Tables) (key : FormatKey) (fallback : BitRange) : BitRange :=
  (produceFormats t key).getD fallback

def resolveLayout (dpp : Firmware) (name : String) (form : Word) : DataLayout :=
  let t := tables dpp name
  let extrasWordAvailable := !isX724Family name
  let numSamples := config t form .NumSamples
  let hasTrace := enabled t form .Trace
  let hasExtras := enabled t form .Extras && extrasWordAvailable
  let extrasConfig := (produceConfigs t .Extras).isSome
  let fmtTS := format t .TS (0, 30)
  let x724 := isX724Family name && dpp = .pha
  let size :=
    (if enabled t form .Energy then 1 else 0) + (if enabled t form .Charge then 1 else 0) +
    (if enabled t form .TS then 1 else 0) + (if hasExtras then 1 else 0) +
    (if hasTrace then numSamples / 2 else 0)
  { evtSize := size % 2 ^ 16
    numSamples := numSamples
    dualTrace := enabled t form .DT
    hasTrace := hasTrace
    hasTS := enabled t form .TS
    hasEnergy := enabled t form .Energy
    hasCharge := enabled t form .Charge
    hasExtras := hasExtras
    hasChannelBit := (produceFormats t .CH).isSome
    extrasConfig := extrasConfig
    extrasMode := if extrasConfig then config t form .Extras % 2 ^ 8 else 0
    fmtTS := fmtTS
    fmtExtras := format t .Extras (0, 31)
    fmtSample := format t .Sample (0, 13)
    fmtDP1 := if (produceFormats t .DP1).isSome then format t .DP1 (14, 14)
      else format t .DP (14, 14)
    fmtDP2 := if (produceFormats t .DP2).isSome then format t .DP2 (15, 15)
      else format t .TR (15, 15)
    tsBits := rangeWidth fmtTS
    resTS := if x724 then 0x80000000 else 0
    resEnergy := if x724 then 0xF3000000 else 0 }

theorem config_lt (t : Tables) (form : Word) (key : ConfigKey) : config t form key < 2 ^ 16 := by
  unfold config
  split
  · split <;> exact Nat.mod_lt _ (Nat.two_pow_pos _)
  · exact Nat.two_pow_pos _

theorem toNat_flag (b : Bool) : b.toNat = if b then 1 else 0 := Bool.cond_eq_ite b 1 0

/-- An event is one word for each part that is switched on, and its trace: the 16-bit
sum never truncates, since the trace length it is made from is a 16-bit value itself. -/
theorem resolveLayout_evtSize (dpp : Firmware) (name : String) (form : Word) :
    (resolveLayout dpp name form).evtSize =
      (resolveLayout dpp name form).hasEnergy.toNat + (resolveLayout dpp name form).hasCharge.toNat +
      (resolveLayout dpp name form).hasTS.toNat + (resolveLayout dpp name form).hasExtras.toNat +
      (if (resolveLayout dpp name form).hasTrace then (resolveLayout dpp name form).numSamples / 2
        else 0) := by
  have hn := config_lt (tables dpp name) form .NumSamples
  simp only [resolveLayout, toNat_flag]
  apply Nat.mod_eq_of_lt
  split_ifs <;> omega

theorem format_size_lt {t : Tables} (h : t ≠ .none) (word : Word) :
    extractBits word (format t .Size (0, 31)) < 2 ^ 31 := by
  have hlt : extractBits word (format t .Size (0, 31)) < 2 ^ rangeWidth (format t .Size (0, 31)) :=
    extractBits_lt (by cases t <;> decide)
  refine lt_of_lt_of_le hlt (Nat.pow_le_pow_right (by decide) ?_)
  cases t with
  | none => exact absurd rfl h
  | _ => decide

end DataFrame

open DataFrame in
/-- A board's frame after `Build`. Its layout is a cache: once a format word has
been set it is the layout of that word. -/
structure DataFrame where
  dgtzName : String
  dppType : Firmware
  dataFormat : Word := 0
  formatSet : Bool := false
  layout : DataLayout := {}
  coherent : formatSet = true → layout = resolveLayout dppType dgtzName dataFormat := by simp

namespace DataFrame

def build (dpp : Firmware) (name : String) : DataFrame := { dgtzName := name, dppType := dpp }

def isSupported (frame : DataFrame) : Bool := tables frame.dppType frame.dgtzName ≠ .none

def sizeFormat (frame : DataFrame) : BitRange :=
  format (tables frame.dppType frame.dgtzName) .Size (0, 31)

/-- `SetDataFormat`: the layout is resolved again only for a new format word. -/
def setDataFormat (frame : DataFrame) (form : Word) : DataFrame :=
  if frame.formatSet ∧ form = frame.dataFormat then frame
  else
    { frame with
      dataFormat := form
      formatSet := true
      layout := resolveLayout frame.dppType frame.dgtzName form
      coherent := fun _ => rfl }

@[simp] theorem setDataFormat_dgtzName (frame : DataFrame) (form : Word) :
    (frame.setDataFormat form).dgtzName = frame.dgtzName := by
  unfold setDataFormat; split <;> rfl

@[simp] theorem setDataFormat_dppType (frame : DataFrame) (form : Word) :
    (frame.setDataFormat form).dppType = frame.dppType := by
  unfold setDataFormat; split <;> rfl

/-- The cache is revalidated: whatever was set before, the layout is that of the new word. -/
theorem setDataFormat_layout (frame : DataFrame) (form : Word) :
    (frame.setDataFormat form).layout = resolveLayout frame.dppType frame.dgtzName form := by
  unfold setDataFormat
  split
  · rename_i h
    rw [h.2]
    exact frame.coherent h.1
  · rfl

@[simp] theorem setDataFormat_isSupported (frame : DataFrame) (form : Word) :
    (frame.setDataFormat form).isSupported = frame.isSupported := by simp [isSupported]

end DataFrame
end CaenDaq
