import Hdmi2Usb.Fx2Slots
/-!
# Fx2Bus — what the slave's samples show of the bus

`Bus` relates the samples to the stage of the master.  It is kept as long as the slave does to the lines no more than
`Relied`, and with it a start condition is seen only where the master makes one (`Bus.start_stage`).
-/
namespace Hdmi2Usb
namespace Fx2

open I2cBus (Level)
open I2cShiftReg SampledWire

variable {img : Image} {s : System} {i : Input}

/-- The cycles to the next sample. -/
def left (c : Core) : Nat := (-c.sampCount).toNat

/-- SCL is high in the slot. -/
structure Clocked (s : System) (slot : Slot) : Prop where
  scl   : s.scl = true
  clk   : Fresh 8 (left s.core) s.master.held true s.core.scl
  rises : Rises s.master.held s.lines.sda s.core.scl s.core.sda
  stays : slot ≠ .addressAck → Stays s.master.held s.lines.sda s.core.scl s.core.sda

/-- What is on the lines and what the samples show of it. -/
def Bus (s : System) : Prop :=
  match s.master.stage with
  | .idle      => s.scl = true ∧ s.core.scl = steady true ∧ Fresh 8 (left s.core) s.master.held true s.core.sda
  | .start     => s.scl = true ∧ s.core.scl = steady true ∧ Fresh 8 (left s.core) s.master.held false s.core.sda
  | .low _     => s.scl = false ∧ Fresh 8 (left s.core) s.master.held false s.core.scl ∧
      (s.core.scl.i = true → Rises 2 s.lines.sda s.core.scl s.core.sda)
  | .set _     => s.scl = false ∧ s.core.scl = steady false
  | .high slot => s.scl = false ∧ s.core.scl = steady false ∨ Clocked s slot

/-- SDA is where the stage puts it. -/
def Driven (m : Master) : Prop :=
  match m.stage with
  | .idle                => m.sda = true
  | .start               => m.sda = false
  | .low _               => True
  | .set slot | .high slot => m.sda = slot.sda

/-- What the parts of the system keep up by themselves. -/
structure Sound (s : System) : Prop where
  carry  : s.core.sampCarry = true ↔ left s.core = 0
  driven : Driven s.master
  free   : s.master.stage.scl = false ∨ s.core.sclDrvReg = true → s.free = 0

/-- What the slave does to the lines where the others rely on it. -/
structure Relied (s : System) : Prop where
  scl   : s.scl = true → s.core.pauseDrv = false
  rises : s.scl = true ∨ s.core.scl.i = true → s.core.sdaDrv = true → s.core.sdaDrvReg = true
  stays : s.scl = true → s.master.stage ≠ .high .addressAck → s.core.sdaDrv = s.core.sdaDrvReg
  off   : s.master.stage = .idle → s.core.sdaDrvReg = false

/-- The master leaves the high phase for the next slot, but for the conditions that end a transaction. -/
theorem next_cases (slot : Slot) (choice : Choice) (sda : Bool) :
    slot = .stop ∧ slot.next choice sda = .idle ∨ slot = .restart ∧ slot.next choice sda = .start ∨
      ∃ slot', slot.next choice sda = .low slot' := by
  cases slot with
  | stop        => exact .inl ⟨rfl, rfl⟩
  | restart     => exact .inr (.inl ⟨rfl, rfl⟩)
  | address i   => exact .inr (.inr ⟨_, rfl⟩)
  | data k      => exact .inr (.inr ⟨_, rfl⟩)
  | addressAck  =>
    obtain ⟨slot', hnext, -⟩ := next_acked (!sda && choice.more) choice.again
    exact .inr (.inr ⟨slot', by simpa [Slot.next] using hnext⟩)
  | dataAck ack =>
    obtain ⟨slot', hnext, -⟩ := next_acked (ack && choice.more) choice.again
    exact .inr (.inr ⟨slot', by simpa [Slot.next] using hnext⟩)

theorem driven_move {m : Master} (h : Driven m) (choice : Choice) (lines : Level) : Driven (m.move choice lines) := by
  unfold Driven at h ⊢
  unfold Master.move
  cases hstage : m.stage with
  | idle      => rfl
  | start     => trivial
  | low slot  => rfl
  | set slot  =>
    rw [hstage] at h
    exact h
  | high slot =>
    simp only [Stage.next]
    rcases next_cases slot choice lines.sda with ⟨-, hnext⟩ | ⟨-, hnext⟩ | ⟨slot', hnext⟩ <;> rw [hnext] <;> trivial

theorem left_cycle (c : Core) (lines : Level) (w : Option Write) :
    left (c.cycle lines w) = if left c = 0 then 8 - 1 else left c - 1 := by
  have hall : ∀ x : BitVec 3, (-(x + 1)).toNat = if (-x).toNat = 0 then 8 - 1 else (-x).toNat - 1 := by decide
  exact hall c.sampCount

theorem left_lt (c : Core) : left c < 8 := (-c.sampCount).isLt

theorem Sound.step (h : Sound s) (img : Image) (i : Input) : Sound (step img s i) where
  carry := by
    have hall : ∀ x : BitVec 3, decide (x = 7) = true ↔ (-(x + 1)).toNat = 0 := by decide
    exact hall s.core.sampCount
  driven := by
    rw [step_master]
    unfold System.nextMaster
    split
    · exact driven_move h.driven _ _
    · exact h.driven
  free := by
    intro hoff
    rw [step_free]
    unfold System.nextFree
    rcases hoff with hoff | hoff
    · have : (s.nextMaster i).stage.scl = false := hoff
      simp [this]
    · have : (s.nextCore img i).sclDrvReg = true := hoff
      simp [this]

theorem sampled_step (img : Image) (s : System) (i : Input) :
    (step img s i).core.scl = s.core.scl.step s.core.sampCarry s.scl ∧
      (step img s i).core.sda = s.core.sda.step s.core.sampCarry s.lines.sda ∧
      left (step img s i).core = (if left s.core = 0 then 8 - 1 else left s.core - 1) :=
  ⟨rfl, rfl, left_cycle _ _ _⟩

theorem line_step (img : Image) (s : System) (i : Input) :
    (step img s i).lines.sda = ((step img s i).master.sda && !s.core.sdaDrv) := rfl

theorem scl_low (h : (step img s i).master.stage.scl = false) : (step img s i).scl = false := by
  have hfree : s.nextFree img i = 0 := by
    have hstage : (s.nextMaster i).stage.scl = false := h
    simp [System.nextFree, hstage]
  simp [step_scl, hfree]

theorem scl_keeps (hscl : s.scl = true) (hpause : s.core.pauseDrv = false)
    (h : (step img s i).master.stage.scl = true) : (step img s i).scl = true := by
  have hfree : s.nextFree img i = s.free + 1 := by
    have hstage : (s.nextMaster i).stage.scl = true := h
    have hdrv : (s.nextCore img i).sclDrvReg = false := hpause
    simp [System.nextFree, hstage, hdrv]
  simp [step_scl, hfree, hscl]

theorem nextFree_le (img : Image) (s : System) (i : Input) : (step img s i).free ≤ s.free + 1 := by
  rw [step_free]
  unfold System.nextFree
  split <;> omega

/-- SCL rises when nobody has pulled it low for long enough. -/
theorem scl_rises (hscl : s.scl = false) (h : (step img s i).scl = true) : 2 ≤ s.free ∧ s.core.pauseDrv = false := by
  rw [step_scl, decide_eq_true_eq, hscl] at h
  obtain ⟨hne, hrise⟩ := h
  have hlt : few < s.nextFree img i := (hrise.resolve_left nofun).2
  refine ⟨?_, ?_⟩
  · have hle := nextFree_le img s i
    rw [step_free] at hle
    unfold few at hlt
    omega
  · by_contra hpause
    have hdrv : (s.nextCore img i).sclDrvReg = true := by
      show s.core.pauseDrv = true
      simpa using hpause
    apply hne
    simp [System.nextFree, hdrv]

/-- SCL does not rise at once. -/
theorem scl_released (hscl : s.scl = false) (hfree : s.free ≤ 1) : (step img s i).scl = false := by
  have hle : s.nextFree img i ≤ 2 := by
    unfold System.nextFree
    split <;> omega
  simp only [step_scl, hscl, few]
  simp
  omega

theorem stage_step (img : Image) (s : System) (i : Input) :
    (step img s i).master.stage = if s.moves i then s.master.stage.next i.choice s.lines.sda else s.master.stage := by
  rw [step_master]
  unfold System.nextMaster
  split <;> rfl

theorem stage_moved (img : Image) (h : s.moves i = true) :
    (step img s i).master.stage = s.master.stage.next i.choice s.lines.sda := by
  rw [stage_step, if_pos h]

theorem waits (img : Image) (h : s.moves i = false) :
    (step img s i).master.stage = s.master.stage ∧ (step img s i).master.sda = s.master.sda ∧
      (step img s i).master.byte = s.master.byte ∧
      (s.scl = s.master.stage.scl → (step img s i).master.held = s.master.held + 1) ∧
      (s.scl ≠ s.master.stage.scl → (step img s i).master.held = 0) := by
  have hmaster : (step img s i).master = s.master.wait s.lines := by
    simp [step_master, System.nextMaster, h]
  rw [hmaster]
  exact ⟨rfl, rfl, rfl, fun hscl => if_pos hscl, fun hscl => if_neg hscl⟩

theorem ready_of_moves (h : s.moves i = true) : 16 ≤ s.master.held ∧ s.scl = s.master.stage.scl := by
  unfold System.moves Master.ready at h
  simp only [Bool.and_eq_true, decide_eq_true_eq] at h
  exact h.2

theorem not_moves_of_held (h : s.master.held < 16) (i : Input) : s.moves i = false := by
  by_contra hmoves
  have := (ready_of_moves (by simpa using hmoves)).1
  omega

/-- The master waits for the SCL that it has released. -/
theorem not_moves_of_scl (hscl : s.scl = false) (h : s.master.stage.scl = true) (i : Input) : s.moves i = false := by
  by_contra hmoves
  have hready := (ready_of_moves (by simpa using hmoves)).2
  rw [hscl, h] at hready
  cases hready

theorem moved (img : Image) (h : s.moves i = true) :
    (step img s i).master = s.master.move i.choice s.lines ∧ 16 ≤ s.master.held ∧ s.scl = s.master.stage.scl := by
  refine ⟨?_, ready_of_moves h⟩
  simp [step_master, System.nextMaster, h]

theorem byte_keeps (img : Image) (h : s.moves i = true) (hstage : ∀ k, s.master.stage ≠ .high (.data k)) :
    (step img s i).master.byte = s.master.byte := by
  rw [(moved img h).1]
  unfold Master.move
  cases hm : s.master.stage with
  | high slot =>
    cases slot with
    | data k => exact absurd hm (hstage k)
    | _      => rfl
  | _         => rfl

/-- While SCL is high or seen so, SDA does not fall by what the slave does. -/
theorem Relied.line_rises (h : Relied s) (hseen : s.scl = true ∨ s.core.scl.i = true)
    (hsda : (step img s i).master.sda = s.master.sda) (hline : s.lines.sda = true) :
    (step img s i).lines.sda = true := by
  rw [line_step, hsda]
  unfold System.lines at hline
  simp only [Bool.and_eq_true, Bool.not_eq_true'] at hline ⊢
  refine ⟨hline.1, ?_⟩
  by_contra hdrv
  rw [h.rises hseen (by simpa using hdrv)] at hline
  cases hline.2

/-- The master holds SDA at the level with SCL high. -/
theorem held_level {level : Bool} (hscl : s.scl = true) (hclk : s.core.scl = steady true)
    (hsda : Fresh 8 (left s.core) s.master.held level s.core.sda) (hline : s.lines.sda = level) (hsound : Sound s)
    (hrely : Relied s) (hstage : s.master.stage.scl = true) (hmoves : s.moves i = false) :
    (step img s i).scl = true ∧ (step img s i).core.scl = steady true ∧
      Fresh 8 (left (step img s i).core) (step img s i).master.held level (step img s i).core.sda := by
  obtain ⟨hclk', hsda', hleft⟩ := sampled_step img s i
  obtain ⟨hstage', -, -, hheld, -⟩ := waits img hmoves
  have hfresh := hsda.step (by decide) hsound.carry
  rw [hscl, hclk, steady_step] at hclk'
  rw [hline] at hsda'
  rw [← hleft, ← hsda', ← hheld (by rw [hscl, hstage])] at hfresh
  exact ⟨scl_keeps hscl (hrely.scl hscl) (by rw [hstage', hstage]), hclk', hfresh⟩

theorem Bus.idle (h : Bus s) (hsound : Sound s) (hrely : Relied s) (hstage : s.master.stage = .idle) :
    Bus (step img s i) := by
  unfold Bus at h
  rw [hstage] at h
  obtain ⟨hscl, hclk, hsda⟩ := h
  have hdriven := hsound.driven
  unfold Driven at hdriven
  rw [hstage] at hdriven
  have hline : s.lines.sda = true := by simp [System.lines, hdriven, hrely.off hstage]
  unfold Bus
  cases hmoves : s.moves i with
  | false =>
    rw [(waits img hmoves).1, hstage]
    exact held_level hscl hclk hsda hline hsound hrely (by rw [hstage]; rfl) hmoves
  | true =>
    obtain ⟨hclk', hsda', -⟩ := sampled_step img s i
    rw [hscl, hclk, steady_step] at hclk'
    obtain ⟨hmaster, hlong, -⟩ := moved img hmoves
    have hstage' : (step img s i).master.stage = .start := by simp [hmaster, Master.move, hstage, Stage.next]
    have hheld : (step img s i).master.held = 0 := by rw [hmaster]; rfl
    rw [hsda.steady (by omega), hline, steady_step] at hsda'
    rw [hstage', hsda', hheld]
    exact ⟨scl_keeps hscl (hrely.scl hscl) (by rw [hstage']; rfl), hclk', fresh_change (left_lt _)⟩

theorem Bus.start (h : Bus s) (hsound : Sound s) (hrely : Relied s) (hstage : s.master.stage = .start) :
    Bus (step img s i) := by
  unfold Bus at h
  rw [hstage] at h
  obtain ⟨hscl, hclk, hsda⟩ := h
  have hdriven := hsound.driven
  unfold Driven at hdriven
  rw [hstage] at hdriven
  have hline : s.lines.sda = false := by simp [System.lines, hdriven]
  unfold Bus
  cases hmoves : s.moves i with
  | false =>
    rw [(waits img hmoves).1, hstage]
    exact held_level hscl hclk hsda hline hsound hrely (by rw [hstage]; rfl) hmoves
  | true =>
    obtain ⟨hclk', hsda', -⟩ := sampled_step img s i
    rw [hscl, hclk, steady_step] at hclk'
    obtain ⟨hmaster, hlong, -⟩ := moved img hmoves
    have hstage' : (step img s i).master.stage = .low (.address 0) := by
      simp [hmaster, Master.move, hstage, Stage.next]
    have hheld : (step img s i).master.held = 0 := by rw [hmaster]; rfl
    rw [hsda.steady (by omega), hline, steady_step] at hsda'
    rw [hstage', hclk', hheld]
    refine ⟨scl_low (by rw [hstage']; rfl), fresh_change (left_lt _), fun _ => ?_⟩
    rw [hsda']
    constructor <;> simp [steady]

theorem Bus.low {slot : Slot} (h : Bus s) (hsound : Sound s) (hrely : Relied s) (hstage : s.master.stage = .low slot) :
    Bus (step img s i) := by
  unfold Bus at h
  rw [hstage] at h
  obtain ⟨hscl, hclk, hrises⟩ := h
  obtain ⟨hclk', hsda', hleft⟩ := sampled_step img s i
  rw [hscl] at hclk'
  cases hmoves : s.moves i with
  | false =>
    obtain ⟨hstage', hmsda, -, hheld, -⟩ := waits img hmoves
    rw [hstage] at hstage' hheld
    replace hheld := hheld hscl
    have hfresh := hclk.step (by decide) hsound.carry
    have hunseen : (step img s i).core.scl.i = true → s.core.scl.i = true := by
      intro hi
      rw [hclk'] at hi
      have := hclk.step_unseen (by rw [hi]; nofun)
      simpa using this
    rw [← hleft, ← hclk', ← hheld] at hfresh
    unfold Bus
    rw [hstage']
    refine ⟨scl_low (by rw [hstage']; rfl), hfresh, fun hi => ?_⟩
    have hi' := hunseen hi
    have hnext := (hrises hi').step (fun _ => le_refl 2) (fun _ => le_refl 2) (hrely.line_rises (.inr hi') hmsda)
      s.core.sampCarry false
    rw [← hclk', ← hsda'] at hnext
    exact hnext.mono (by omega)
  | true =>
    obtain ⟨hmaster, hlong, -⟩ := moved img hmoves
    have hstage' : (step img s i).master.stage = .set slot := by simp [hmaster, Master.move, hstage, Stage.next]
    rw [hclk.steady (by omega), steady_step] at hclk'
    unfold Bus
    rw [hstage']
    exact ⟨scl_low (by rw [hstage']; rfl), hclk'⟩

theorem Bus.set {slot : Slot} (h : Bus s) (hsound : Sound s) (hstage : s.master.stage = .set slot) :
    Bus (step img s i) := by
  unfold Bus at h
  rw [hstage] at h
  obtain ⟨hscl, hclk⟩ := h
  obtain ⟨hclk', -, -⟩ := sampled_step img s i
  rw [hscl, hclk, steady_step] at hclk'
  cases hmoves : s.moves i with
  | false =>
    obtain ⟨hstage', -⟩ := waits img hmoves
    rw [hstage] at hstage'
    unfold Bus
    rw [hstage']
    exact ⟨scl_low (by rw [hstage']; rfl), hclk'⟩
  | true =>
    obtain ⟨hmaster, -, -⟩ := moved img hmoves
    have hstage' : (step img s i).master.stage = .high slot := by simp [hmaster, Master.move, hstage, Stage.next]
    have hfree : s.free = 0 := hsound.free (.inl (by rw [hstage]; rfl))
    unfold Bus
    rw [hstage']
    exact .inl ⟨scl_released hscl (by omega), hclk'⟩

/-- SCL is still low, and the master waits for it. -/
theorem Bus.stretched {slot : Slot} (hscl : s.scl = false) (hclk : s.core.scl = steady false)
    (hstage : s.master.stage = .high slot) : Bus (step img s i) := by
  have hmoves : s.moves i = false := not_moves_of_scl hscl (by rw [hstage]; rfl) i
  obtain ⟨hstage', -, -, -, hheld⟩ := waits img hmoves
  rw [hstage] at hstage' hheld
  replace hheld := hheld (by rw [hscl]; nofun)
  obtain ⟨hclk', -, -⟩ := sampled_step img s i
  rw [hscl, hclk, steady_step] at hclk'
  unfold Bus
  rw [hstage']
  cases hscl' : (step img s i).scl with
  | false => exact .inl ⟨rfl, hclk'⟩
  | true  =>
    refine .inr ⟨hscl', ?_, ?_, fun _ => ?_⟩ <;> rw [hheld, hclk']
    · exact fresh_change (left_lt _)
    · exact rises_zero _ rfl _
    · exact stays_zero _ rfl _

theorem Clocked.held_of_s2 {slot : Slot} (h : Clocked s slot) : s.core.scl.s2 = true → 2 ≤ s.master.held := h.clk.s2.1

theorem Clocked.held_of_i {slot : Slot} (h : Clocked s slot) (hi : s.core.scl.i = true) : 2 ≤ s.master.held := by
  have := h.clk.seen hi
  omega

theorem Clocked.wait {slot : Slot} (h : Clocked s slot) (hsound : Sound s) (hrely : Relied s)
    (hstage : s.master.stage = .high slot) (hmoves : s.moves i = false) : Bus (step img s i) := by
  obtain ⟨hclk', hsda', hleft⟩ := sampled_step img s i
  rw [h.scl] at hclk'
  obtain ⟨hstage', hmsda, -, hheld, -⟩ := waits img hmoves
  rw [hstage] at hstage' hheld
  replace hheld := hheld h.scl
  have hfresh := h.clk.step (by decide) hsound.carry
  have hrises := h.rises.step h.held_of_s2 h.held_of_i (hrely.line_rises (.inl h.scl) hmsda) s.core.sampCarry true
  rw [← hleft, ← hclk', ← hheld] at hfresh
  rw [← hclk', ← hsda', ← hheld] at hrises
  unfold Bus
  rw [hstage']
  refine .inr ⟨scl_keeps h.scl (hrely.scl h.scl) (by rw [hstage']; rfl), hfresh, hrises, fun hslot => ?_⟩
  have hsame : (step img s i).lines.sda = s.lines.sda := by
    rw [line_step, hmsda, hrely.stays h.scl (by rw [hstage]; exact fun heq => hslot (Stage.high.inj heq))]
    rfl
  have hstays := (h.stays hslot).step h.held_of_s2 s.core.sampCarry true
  rw [← hclk', ← hsda', ← hheld, ← hsame] at hstays
  exact hstays

/-- The master has held a level of SDA in the slot, and the samples show it. -/
theorem Clocked.sampled {slot : Slot} {level : Bool} (h : Clocked s slot) (hslot : slot ≠ .addressAck)
    (hlong : 16 ≤ s.master.held) (hline : s.lines.sda = level) (img : Image) (i : Input) :
    (step img s i).core.sda = steady level := by
  have hstays := h.stays hslot
  rw [h.clk.steady (by omega), hline] at hstays
  rw [(sampled_step img s i).2.1, hstays.steady (by omega), hline, steady_step]

/-- The high phase ends: with the bus idle, with a start condition, or with SCL pulled low. -/
theorem Clocked.move {slot : Slot} (h : Clocked s slot) (hsound : Sound s) (hrely : Relied s) (hyielded : Yielded s i)
    (hstage : s.master.stage = .high slot) (hmoves : s.moves i = true) : Bus (step img s i) := by
  obtain ⟨hclk', hsda', -⟩ := sampled_step img s i
  obtain ⟨hmaster, hlong, -⟩ := moved img hmoves
  have hdriven := hsound.driven
  unfold Driven at hdriven
  rw [hstage] at hdriven
  have hheld : (step img s i).master.held = 0 := by rw [hmaster]; rfl
  have hnext : (step img s i).master.stage = slot.next i.choice s.lines.sda := by
    simp [hmaster, Master.move, hstage, Stage.next]
  have hsteady := h.clk.steady (by omega)
  rw [h.scl, hsteady, steady_step] at hclk'
  unfold Bus
  rcases next_cases slot i.choice s.lines.sda with ⟨rfl, hidle⟩ | ⟨rfl, hstart⟩ | ⟨slot', hlow⟩
  · have hoff : s.lines.sda = false := by simp [System.lines, hdriven, Slot.sda]
    rw [hidle] at hnext
    rw [hnext, hheld, h.sampled nofun hlong hoff]
    exact ⟨scl_keeps h.scl (hrely.scl h.scl) (by rw [hnext]; rfl), hclk', fresh_change (left_lt _)⟩
  · have hoff : s.core.sdaDrvReg = false := hyielded ⟨hmoves, by simp [hstage]⟩
    have hon : s.lines.sda = true := by simp [System.lines, hdriven, Slot.sda, hoff]
    rw [hstart] at hnext
    rw [hnext, hheld, h.sampled nofun hlong hon]
    exact ⟨scl_keeps h.scl (hrely.scl h.scl) (by rw [hnext]; rfl), hclk', fresh_change (left_lt _)⟩
  · have hmsda : (step img s i).master.sda = s.master.sda := by
      simp [hmaster, Master.move, hstage, Stage.next, hlow, Stage.sda]
    have hrises := h.rises.step h.held_of_s2 h.held_of_i (hrely.line_rises (.inl h.scl) hmsda) s.core.sampCarry true
    rw [hsteady, steady_step, ← hclk', ← hsda'] at hrises
    rw [hlow] at hnext
    rw [hnext, hheld]
    refine ⟨scl_low (by rw [hnext]; rfl), ?_, fun _ => hrises.mono (by omega)⟩
    rw [hclk']
    exact fresh_change (left_lt _)

theorem Bus.step (h : Bus s) (hsound : Sound s) (hrely : Relied s) (img : Image) (hyielded : Yielded s i) :
    Bus (step img s i) := by
  cases hstage : s.master.stage with
  | idle      => exact h.idle hsound hrely hstage
  | start     => exact h.start hsound hrely hstage
  | low slot  => exact h.low hsound hrely hstage
  | set slot  => exact h.set hsound hstage
  | high slot =>
    unfold Bus at h
    rw [hstage] at h
    rcases h with ⟨hscl, hclk⟩ | hclocked
    · exact Bus.stretched hscl hclk hstage
    · cases hmoves : s.moves i with
      | false => exact hclocked.wait hsound hrely hstage hmoves
      | true  => exact hclocked.move hsound hrely hyielded hstage hmoves

/-- Where the master moves the samples show the lines. -/
theorem Bus.steady_of_moves (h : Bus s) (hmoves : s.moves i = true) :
    (s.master.stage.scl = true → s.core.scl = steady true) ∧
      (∀ slot, s.master.stage = .low slot → s.core.scl = steady false) := by
  obtain ⟨hlong, hready⟩ := ready_of_moves hmoves
  unfold Bus at h
  cases hstage : s.master.stage with
  | idle      =>
    rw [hstage] at h
    exact ⟨fun _ => h.2.1, nofun⟩
  | start     =>
    rw [hstage] at h
    exact ⟨fun _ => h.2.1, nofun⟩
  | low slot  =>
    rw [hstage] at h
    exact ⟨nofun, fun _ _ => h.2.1.steady (by omega)⟩
  | set slot  => exact ⟨nofun, nofun⟩
  | high slot =>
    rw [hstage] at h hready
    refine ⟨fun _ => ?_, nofun⟩
    rcases h with ⟨hscl, -⟩ | ⟨-, hclk, -⟩
    · rw [hscl] at hready
      cases hready
    · exact hclk.steady (by omega)

/-- A start condition is seen only where the master makes one. -/
theorem Bus.start_stage (h : Bus s) (hapart : Apart s) (hstart : s.core.start = true) :
    s.master.stage = .start ∧ s.core.sda.i = false ∧ s.core.sda.r = true := by
  unfold Core.start Wire.falling at hstart
  simp only [Bool.and_eq_true, Bool.not_eq_true'] at hstart
  obtain ⟨hi, hsi, hsr⟩ := hstart
  have hr : s.core.scl.r = true := by
    by_contra hr
    apply hapart
    simp only [Bool.not_eq_true] at hr
    simp [Core.start, Wire.falling, Wire.rising, hi, hsi, hsr, hr]
  have hfalls : s.core.sda.falling = true := by simp [Wire.falling, hsi, hsr]
  unfold Bus at h
  cases hstage : s.master.stage with
  | start     => exact ⟨rfl, hsi, hsr⟩
  | idle      =>
    rw [hstage] at h
    have := h.2.2.before (by rw [hsi]; nofun)
    rw [hsr] at this
    exact absurd rfl this
  | low slot  =>
    rw [hstage] at h
    rw [(h.2.2 hi).not_falling hi hr] at hfalls
    cases hfalls
  | set slot  =>
    rw [hstage] at h
    rw [h.2] at hi
    cases hi
  | high slot =>
    rw [hstage] at h
    rcases h with ⟨-, hclk⟩ | ⟨-, -, hrises, -⟩
    · rw [hclk] at hi
      cases hi
    · rw [hrises.not_falling hi hr] at hfalls
      cases hfalls

end Fx2
end Hdmi2Usb
