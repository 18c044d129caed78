import CaenDaq.DataFrame

/-! Board identity and decoded events, as far as the modelled functions read them. -/

namespace CaenDaq

inductive DppType
  | notDpp | std | pha | psd | ci | zle | qdc | daw
  deriving DecidableEq, Repr

inductive SyncRole
  | independent | master | slave
  deriving DecidableEq, Repr

def kStartModeSW : ℕ := 0

structure BoardInfo where
  modelName : String := ""
  channels : ℕ := 0
  boardRegId : ℕ := 0
  dppType : DppType := .notDpp
  nsPerSample : ℕ := 0
  nsPerTimetag : ℕ := 0
  channelEnableMask : Word := 0
  acquisitionControl : Word := 0
  boardConfiguration : Word := 0
  frontPanelIOControl : Word := 0
  globalTriggerMask : Word := 0
  trgOutEnableMask : Word := 0
  runDelay : Word := 0
  syncRole : SyncRole := .independent
  deriving DecidableEq, Repr

/-- A trace sample, a signed 16-bit number in two's complement. -/
abbrev Sample := BitVec 16

/-- One decoded event. The samples of `wave` are those the callback sees; an event
without a trace has none. -/
structure DecodedEvent where
  board : ℕ := 0
  channel : ℕ := 0
  timestamp : ℕ := 0
  timePs : ℤ := 0
  energy : ℕ := 0
  qshort : ℕ := 0
  qlong : ℕ := 0
  pileup : Bool := false
  lost : Bool := false
  satu : Bool := false
  wave : List Sample := []
  deriving DecidableEq, Repr

end CaenDaq
