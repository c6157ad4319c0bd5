import Hdmi2Usb.Framebuffer
/-!
# VideoModes — the video timings the firmware knows (`processor.h`, `processor.c`, `edid.h`)

The table `videoModes` is indexed by mode number; its length is `PROCESSOR_MODE_COUNT`.  Two boards have one mode more,
in the middle of it.
-/
namespace Hdmi2Usb

structure VideoTiming where
  /-- In tens of kHz. -/
  pixelClock        : Word
  hActive           : Word
  hBlanking         : Word
  hSyncOffset       : Word
  hSyncWidth        : Word
  vActive           : Word
  vBlanking         : Word
  vSyncOffset       : Word
  vSyncWidth        : Word
  flags             : Word
  establishedTiming : Word
  comment           : Option String
deriving DecidableEq, Inhabited

def edidHsyncPos : Word := 0b00000010
def edidHsyncNeg : Word := 0b00000000
def edidVsyncPos : Word := 0b00000100
def edidVsyncNeg : Word := 0b00000000
def edidInterlace : Word := 0b10000000
def edidDigital : Word := 0b00011000

inductive Clocking
  | pll
  | mmcm
deriving DecidableEq

/-- What a build has, by the macros the firmware tests. -/
structure Platform where
  /-- `PLATFORM_NETV2 || PLATFORM_NEXYS_VIDEO`. -/
  netv2OrNexysVideo : Bool
  hasIn             : Fin 2 → Bool
  hasOut            : Fin 2 → Bool
  hasEncoder        : Bool
  hasPcie           : Bool
  hasMdio           : Bool
  clocking          : Clocking
  simulation        : Bool
  mainRam           : Bool

def opsis : Platform where
  netv2OrNexysVideo := false
  hasIn             := fun _ => true
  hasOut            := fun _ => true
  hasEncoder        := true
  hasPcie           := false
  hasMdio           := false
  clocking          := .pll
  simulation        := false
  mainRam           := true

/-! ## The table -/

def videoModes1080p60 : VideoTiming :=
  ⟨14835, 1920, 280, 88, 44, 1080, 45, 4, 5, edidDigital ||| edidHsyncPos ||| edidVsyncPos, 0, none⟩

def videoModes (p : Platform) : List VideoTiming :=
  [⟨3150, 640, 192, 24, 40, 480, 40, 9, 3, edidDigital, 0x0800, none⟩,
    ⟨3150, 640, 200, 16, 64, 480, 20, 1, 3, edidDigital, 0x0400, none⟩,
    ⟨3600, 800, 224, 24, 72, 600, 25, 1, 2, edidDigital, 0x0200, none⟩,
    ⟨4000, 800, 256, 40, 128, 600, 28, 1, 4, edidDigital, 0x0100, none⟩,
    ⟨5000, 800, 240, 56, 120, 600, 66, 37, 6, edidDigital, 0x0080, none⟩,
    ⟨4950, 800, 256, 16, 80, 600, 25, 1, 3, edidDigital, 0x0040, none⟩,
    ⟨6500, 1024, 320, 24, 136, 768, 38, 3, 6, edidDigital, 0x0008, none⟩,
    ⟨7500, 1024, 304, 24, 136, 768, 38, 3, 6, edidDigital, 0x0004, none⟩,
    ⟨7880, 1024, 288, 16, 96, 768, 32, 1, 3, edidDigital, 0x0002, none⟩,
    ⟨7425, 1280, 370, 220, 40, 720, 30, 5, 5, edidDigital ||| edidHsyncPos ||| edidVsyncPos, 0, none⟩,
    ⟨7425, 1280, 700, 440, 40, 720, 30, 5, 5, edidDigital ||| edidHsyncPos ||| edidVsyncPos, 0, none⟩,
    ⟨8901, 1920, 720, 528, 44, 1080, 45, 4, 5, edidDigital ||| edidHsyncPos ||| edidVsyncPos, 0, none⟩] ++
  (if p.netv2OrNexysVideo then [videoModes1080p60] else []) ++
  [⟨2672, 720, 176, 16, 72, 480, 17, 1, 3, edidDigital ||| edidHsyncPos ||| edidVsyncPos, 0,
      some "(HV20/HV30 in NTSC mode)"⟩,
    ⟨3267, 720, 192, 24, 72, 576, 21, 1, 3, edidDigital ||| edidHsyncPos ||| edidVsyncPos, 0,
      some "(HV20/HV30 in PAL mode)"⟩]

def processorMode720p60 : Int := 9
def processorMode720p50 : Int := 10

/-- On the boards that have it. -/
def processorMode1080p60 : Int := 12

def processorModeCustom : Int := -1

def processorModeCount (p : Platform) : Int := (videoModes p).length

def edidSecondaryModeOff : Int := -1

theorem processorModeCount_eq (p : Platform) : processorModeCount p = if p.netv2OrNexysVideo then 15 else 14 := by
  cases h : p.netv2OrNexysVideo <;> simp [processorModeCount, videoModes, h]

def InTable (p : Platform) (mode : Int) : Prop := 0 ≤ mode ∧ mode < processorModeCount p

instance (p : Platform) (mode : Int) : Decidable (InTable p mode) := inferInstanceAs (Decidable (_ ∧ _))

/-- What `video_modes[mode]` reads: outside the table, whatever memory holds there. -/
def videoModeAt (p : Platform) (stray : Int → VideoTiming) (mode : Int) : VideoTiming :=
  if 0 ≤ mode then (videoModes p)[mode.toNat]?.getD (stray mode) else stray mode

theorem videoModeAt_of_inTable {p : Platform} {mode : Int} (h : InTable p mode) (stray : Int → VideoTiming) :
    (videoModes p)[mode.toNat]? = some (videoModeAt p stray mode) := by
  have hlt : mode.toNat < (videoModes p).length := by
    obtain ⟨hnonneg, hlt⟩ := h
    unfold processorModeCount at hlt
    omega
  unfold videoModeAt
  rw [if_pos h.1, List.getElem?_eq_getElem hlt, Option.getD_some]

theorem videoModeAt_of_not_inTable {p : Platform} {mode : Int} (h : ¬ InTable p mode) (stray : Int → VideoTiming) :
    videoModeAt p stray mode = stray mode := by
  unfold videoModeAt
  by_cases hnonneg : 0 ≤ mode
  · have hge : ¬ mode < processorModeCount p := fun hlt => h ⟨hnonneg, hlt⟩
    unfold processorModeCount at hge
    rw [if_pos hnonneg, List.getElem?_eq_none (by omega), Option.getD_none]
  · rw [if_neg hnonneg]

/-! ## The refresh rate -/

def refreshSpan (mode : VideoTiming) : Word :=
  (mode.hActive + mode.hBlanking) * (mode.vActive + mode.vBlanking)

/-- `calculate_refresh_rate`, in hundredths of Hz. -/
def calculateRefreshRate (mode : VideoTiming) : Word :=
  let clock : BitVec 64 := mode.pixelClock.zeroExtend 64 * (10000 * 100)
  (clock / (refreshSpan mode).zeroExtend 64).truncate 32

end Hdmi2Usb
