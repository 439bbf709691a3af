import SimtMachine.Proofs.Device.Independence
import SimtMachine.Proofs.Guarded.Device

/-!
# Reset to the state at power-on

A kernel may be cut off in any cycle, with blocks half done and requests at the ports. A reset
leaves nothing of it but the content of data memory: the device is then the one that would be
created with this content.
-/

namespace SimtMachine

/-! ## Memories -/

theorem Image.ofArray_toArray {α : Type} [Inhabited α] (m : Image α) :
    Image.ofArray m.toArray = m := by
  refine Vector.ext fun i hi ↦ ?_
  simp [Image.ofArray]

namespace Device

variable {c : Config} {program : Array UInt16} {data : Array UInt8} {d d' d'' : Device}

/-! ## What no call changes -/

/-- What cycles, launches and resets keep holds after every session. -/
theorem session_keeps {P : Device → Prop} {calls : List HostCall}
    (hadvance : ∀ {d : Device}, P d → P d.advance)
    (hlaunch : ∀ {d d' : Device} {n : Nat}, .launch n ∈ calls →
      d.launch n = .ok d' → P d → P d')
    (hreset : ∀ {d : Device}, P d → P d.reset) (h : P d) : P (d.session calls).1 := by
  induction calls generalizing d with
  | nil => exact h
  | cons call calls ih =>
    have hcall : P (d.perform call).1 := by
      cases call with
      | launch n =>
        rw [Device.perform]
        cases hl : d.launch n with
        | error e => exact h
        | ok d' => exact hlaunch List.mem_cons_self hl h
      | step =>
        rw [Device.perform]
        cases hs : d.step with
        | error f => exact h
        | ok d' =>
          obtain rfl := step_eq_ok hs
          exact hadvance h
      | run max => exact runFor_keeps (P := P) hadvance h _
      | reset => exact hreset h
    exact ih (fun hn ↦ hlaunch (List.mem_cons_of_mem _ hn)) hcall

/-- The devices have the same configuration, the same program, and data memories that differ in
their cells only. -/
structure Keeps (d d' : Device) : Prop where
  config : d'.config = d.config
  program : d'.program = d.program
  channels : d'.data.channels = d.data.channels
  interval : d'.data.interval = d.data.interval

theorem Keeps.refl (d : Device) : d.Keeps d := ⟨rfl, rfl, rfl, rfl⟩

theorem Keeps.trans (h : d.Keeps d') (h' : d'.Keeps d'') : d.Keeps d'' where
  config := h'.config.trans h.config
  program := h'.program.trans h.program
  channels := h'.channels.trans h.channels
  interval := h'.interval.trans h.interval

/-- Only fetches are ever served by program memory. -/
theorem Reachable.keeps_advance (h : d.Reachable) : d.Keeps d.advance where
  config := rfl
  program := by
    obtain ⟨_, _, _, _, hc⟩ := h.consistent
    have hcells : d.serve.1.cells = d.program.cells := (pushes_serve [] [] hc.sound).1
    obtain ⟨hchannels, hinterval⟩ :=
      d.program.settings_serviceWith d.cycle (sweep Core.visitProgram) d.cores
    exact Memory.ext hcells hchannels hinterval
  channels := (Memory.settings_serviceWith ..).1
  interval := (Memory.settings_serviceWith ..).2

theorem keeps_of_launch {n : Nat} (h : d.launch n = .ok d') : d.Keeps d' := by
  obtain ⟨-, rfl⟩ := eq_of_launch h
  exact ⟨rfl, rfl, rfl, rfl⟩

theorem keeps_reset (d : Device) : d.Keeps d.reset := ⟨rfl, rfl, rfl, rfl⟩

theorem Reachable.session (h : d.Reachable) (calls : List HostCall) :
    (d.session calls).1.Reachable ∧ d.Keeps (d.session calls).1 := by
  refine session_keeps (P := fun d' ↦ d'.Reachable ∧ d.Keeps d') ?advance ?launch ?reset
    ⟨h, .refl d⟩
  case advance =>
    intro d' ⟨hr, hk⟩
    exact ⟨hr.step hr.step_eq, hk.trans hr.keeps_advance⟩
  case launch =>
    intro d' d'' n _ hl ⟨hr, hk⟩
    exact ⟨hr.launch hl, hk.trans (keeps_of_launch hl)⟩
  case reset =>
    intro d' ⟨hr, hk⟩
    exact ⟨hr.reset, hk.trans (keeps_reset d')⟩

/-! ## The device after a reset -/

theorem create_reset (h : create c program data = .ok d) (hr : d'.Reachable) (hk : d.Keeps d') :
    create c program d'.data.cells.toArray = .ok d'.reset := by
  obtain ⟨_, _, _, _, hc⟩ := hr.consistent
  obtain ⟨hvalid, hsize, -⟩ := exists_create_iff.1 ⟨d, h⟩
  obtain ⟨fresh, hf⟩ : ∃ fresh, create c program d'.data.cells.toArray = .ok fresh :=
    exists_create_iff.2 ⟨hvalid, hsize, by simp⟩
  obtain ⟨-, p, m, hp, hm, rfl⟩ := eq_of_create h
  obtain ⟨-, p', m', hp', hm', rfl⟩ := eq_of_create hf
  obtain rfl : p = p' := Except.ok.inj (hp.symm.trans hp')
  have hdata : m' = d'.data := by
    obtain ⟨hchannels, hinterval⟩ := Memory.settings_of_create hm
    obtain ⟨hchannels', hinterval'⟩ := Memory.settings_of_create hm'
    refine Memory.ext ?_ ?_ ?_
    · rw [Memory.cells_of_create hm', Image.ofArray_toArray]
    · exact (hchannels'.trans hchannels.symm).trans hk.channels.symm
    · exact (hinterval'.trans hinterval.symm).trans hk.interval.symm
  have hconfig : c = d'.config := hk.config.symm
  have hprogram : p = d'.program := hk.program.symm
  have hcores : d'.cores.map Core.reset = idleCores d'.config := hc.fresh_reset.cores
  rw [hf, hdata, hprogram, hconfig, ← hcores]
  rfl

theorem idle_of_mem_idleCores {x : Core} (hx : x ∈ idleCores c) :
    ∃ id, x = Core.idle id c.threadsPerBlock := by
  obtain ⟨id, -, rfl⟩ := List.mem_map.1 hx
  exact ⟨id, rfl⟩

/-- No kernel has been launched since the reset, and all cores are still as it left them. -/
structure Dormant (d : Device) : Prop where
  start : d.start = false
  dispatcher : d.dispatcher = .initial d.config.coreCount d.config.threadsPerBlock
  cores : d.cores = idleCores d.config

theorem Fresh.dormant (h : d.Fresh) : d.Dormant := ⟨h.start, h.dispatcher, h.cores⟩

/-- The clock alone wakes nothing up. -/
theorem Dormant.advance (h : d.Dormant) : d.advance.Dormant ∧ d.advance.data = d.data := by
  have hserve : d.serve = (d.program, d.data, d.cores) := by
    apply serve_of_idle
    intro x hx
    obtain ⟨id, rfl⟩ := idle_of_mem_idleCores (h.cores ▸ hx)
    exact ⟨id, _, rfl⟩
  have hhold : d.dispatcher.advance d.dispatchInput = d.dispatcher.hold := by
    refine Dispatcher.advance_of_not_launched (by rw [h.dispatcher]; rfl) ?_
    simp [Dispatcher.accepts, dispatchInput, h.start]
  have hcores : d.advance.cores = idleCores d.config := by
    rw [advance_cores, hserve, hhold, h.dispatcher, h.cores]
    refine List.ext_getElem (by simp [idleCores, Dispatcher.hold, Dispatcher.initial]) ?_
    intro i _ _
    have htick := (Core.sound_idle (fun _ _ ↦ True) i d.config.threadsPerBlock).tick_asleep rfl
    simp [idleCores, Dispatcher.hold, Dispatcher.initial, Slot.unused, orderedCore, htick]
  have hdisp : d.advance.dispatcher = d.dispatcher := congrArg Prod.fst hhold
  exact ⟨⟨h.start, hdisp.trans h.dispatcher, hcores⟩, congrArg (fun s ↦ s.2.1) hserve⟩

theorem Dormant.reset (h : d.Dormant) : d.reset.Dormant := by
  have hcores : d.cores.map Core.reset = idleCores d.config := by
    rw [h.cores, idleCores, List.map_map]
    rfl
  exact ⟨rfl, rfl, hcores⟩

theorem Dormant.session (h : d.Dormant) {calls : List HostCall} (hc : ∀ n, .launch n ∉ calls) :
    (d.session calls).1.Dormant ∧ (d.session calls).1.data = d.data := by
  refine session_keeps (P := fun d' ↦ d'.Dormant ∧ d'.data = d.data) ?advance ?launch ?reset
    ⟨h, rfl⟩
  case advance =>
    intro d' ⟨hd, hdata⟩
    exact ⟨hd.advance.1, hd.advance.2.trans hdata⟩
  case launch =>
    intro d' d'' n hn
    exact absurd hn (hc n)
  case reset =>
    intro d' ⟨hd, hdata⟩
    exact ⟨hd.reset, hdata⟩

/-- Whatever a host has done with a device, and in whatever state it leaves a kernel behind: the
configuration and the program are those that the device was created with, and a reset makes it the
device that is created with them and with what data memory holds. No request of the kernel is left
at any port, and the clock serves none. So from the reset on a session goes on as on that new
device, with the same replies. -/
theorem reset_is_power_on (h : create c program data = .ok d) (calls : List HostCall) :
    (d.session calls).1.config = c ∧ (d.session calls).1.program = d.program ∧
    create c program (d.session calls).1.data.cells.toArray = .ok (d.session calls).1.reset ∧
    (∀ x ∈ (d.session calls).1.reset.cores, x.dataPorts = [] ∧ x.fetcher.port = .quiet) ∧
    (∀ waits : List HostCall, (∀ n, .launch n ∉ waits) →
      ((d.session calls).1.reset.session waits).1.data = (d.session calls).1.data) ∧
    ∀ fresh, create c program (d.session calls).1.data.cells.toArray = .ok fresh →
      ∀ later, d.session (calls ++ .reset :: later) =
        ((fresh.session later).1, (d.session calls).2 ++ .done :: (fresh.session later).2) := by
  obtain ⟨hr, hk⟩ := (Reachable.create h).session calls
  have hreset := create_reset h hr hk
  have hfresh := fresh_of_create hreset
  refine ⟨?config, hk.program, hreset, fun x hx ↦ ?ports, fun waits hw ↦ ?served,
    fun fresh hf later ↦ ?later⟩
  case config =>
    obtain ⟨-, _, _, -, -, rfl⟩ := eq_of_create h
    exact hk.config
  case ports =>
    obtain ⟨id, rfl⟩ := idle_of_mem_idleCores (hfresh.cores ▸ hx)
    exact ⟨rfl, rfl⟩
  case served => exact (hfresh.dormant.session hw).2
  case later =>
    obtain rfl : (d.session calls).1.reset = fresh := Except.ok.inj (hreset.symm.trans hf)
    rw [Device.session, sweep_append]
    rfl

/-- A run that the host gives up before the second half of the stores is served. -/
def cutOff : List HostCall := [.launch 6, .run 53]

theorem reset_is_power_on_cut_off :
    ∃ d, create slowMemory increment #[] = .ok d ∧
      ((d.session cutOff).1.cores.flatMap Core.dataPorts).countP Port.isPending = 4 ∧
      (d.session cutOff).1.data.cells.toList.take 6 = [0, 0, 0, 0, 1, 1] ∧
      ∃ fresh, create slowMemory increment (d.session cutOff).1.data.cells.toArray = .ok fresh ∧
        (d.session cutOff).1.reset = fresh ∧
        d.session (cutOff ++ .reset :: [.launch 6, .run 400]) =
          ((fresh.session [.launch 6, .run 400]).1,
            [.launched (.ok ()), .ran (.error (.cycleLimit 53)), .done, .launched (.ok ()),
              .ran (.ok 118)]) := by
  have hrun : ((create slowMemory increment #[]).toOption.map fun d ↦
      (((d.session cutOff).1.cores.flatMap Core.dataPorts).countP Port.isPending,
        (d.session cutOff).1.data.cells.toList.take 6,
        (d.session (cutOff ++ .reset :: [.launch 6, .run 400])).2)) =
      some (4, [0, 0, 0, 0, 1, 1], [.launched (.ok ()), .ran (.error (.cycleLimit 53)), .done,
        .launched (.ok ()), .ran (.ok 118)]) := by
    decide +kernel
  obtain ⟨d, hd⟩ : ∃ d, create slowMemory increment #[] = .ok d :=
    exists_create_iff.2 ⟨rfl, by decide, by decide⟩
  simp only [hd, Except.toOption, Option.map_some, Option.some.injEq, Prod.mk.injEq] at hrun
  obtain ⟨hpending, hdata, hreplies⟩ := hrun
  obtain ⟨-, -, hfresh, -, -, hlater⟩ := reset_is_power_on hd cutOff
  have hstate := congrArg Prod.fst (hlater _ hfresh [.launch 6, .run 400])
  exact ⟨d, hd, hpending, hdata, _, hfresh, rfl, Prod.ext hstate hreplies⟩

end Device

end SimtMachine
