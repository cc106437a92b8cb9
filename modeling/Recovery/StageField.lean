import Recovery.BootMessage

/-!
The stage of a package that reboots while it is installed. `set_stage` and `get_stage` of the updater use a
field of the bootloader message, which `reboot_now` and the starts of recovery write to as well.
-/
namespace Recovery.StageField
open Memory BootMessage List

abbrev Misc (base : Nat) := { disk : Bytes // base + 1088 ≤ disk.length }

variable {base : Nat}

/-- Seeks to a place of the message and writes there; a device keeps its size. -/
def Misc.fwrite (m : Misc base) (pos : Nat) (data : Bytes) : Misc base :=
  ⟨m.1.mapIdx fun i b => if base + pos ≤ i then data[i - (base + pos)]?.getD b else b, by simpa using m.2⟩
def Misc.fread (m : Misc base) (pos n : Nat) : Bytes := (m.1.drop (base + pos)).take n

theorem length_fread (m : Misc base) {pos n : Nat} (inside : pos + n ≤ 1088) : (m.fread pos n).length = n := by
  simp only [Misc.fread,length_take,length_drop]
  omega

def SetStageFn (m : Misc base) (stagestr : Bytes) : Misc base :=
  m.fwrite 832 (if 32 < stagestr.length + 1 then stagestr.take 31 ++ [0] else stagestr ++ [0])
def GetStageFn (m : Misc base) : Bytes := cstring ((m.fread 832 32).set 31 0)
def RebootNowFn (m : Misc base) : Misc base := m.fwrite 0 (List.replicate 32 0)

def get_bootloader_message_block (m : Misc base) : BootloaderMessage where
  command := m.fread 0 32
  status := m.fread 32 32
  recovery := m.fread 64 768
  stage := m.fread 832 32
  reserved := m.fread 864 224
  command_length := length_fread m (by decide)
  recovery_length := length_fread m (by decide)
def set_bootloader_message_block (m : Misc base) (boot : BootloaderMessage) : Misc base :=
  m.fwrite 0 (boot.command ++ boot.status ++ boot.recovery ++ boot.stage ++ boot.reserved)

/-- What may happen to the message before the installation is finished. -/
inductive Event where
  | reboot_now
  | recovery (oemlock : Bool) (file : Option Bytes) (argv : List Bytes)

def happens (m : Misc base) : Event → Misc base
  | .reboot_now => RebootNowFn m
  | .recovery oemlock file argv =>
    set_bootloader_message_block m (get_args oemlock (get_bootloader_message_block m) file argv).boot

/-! ## The stage -/

theorem getElem?_fwrite (m : Misc base) (pos : Nat) (data : Bytes) (i : Nat) : (m.fwrite pos data).1[i]? =
    m.1[i]?.map fun b => if base + pos ≤ i then data[i - (base + pos)]?.getD b else b := by
  simp [Misc.fwrite]
theorem getElem?_fread (m : Misc base) {pos n : Nat} (i : Nat) :
    (m.fread pos n)[i]? = if i < n then m.1[base + pos + i]? else none := by
  rw [Misc.fread,getElem?_take,getElem?_drop]

theorem fwrite_apart (m : Misc base) {pos i : Nat} {data : Bytes}
    (apart : i < base + pos ∨ base + pos + data.length ≤ i) :
    (m.fwrite pos data).1[i]? = m.1[i]? := by
  rw [getElem?_fwrite]
  split
  · rw [getElem?_eq_none (by omega)]
    exact Option.map_id'
  · exact Option.map_id'
theorem fread_inside (m : Misc base) {pos k n : Nat} {data : Bytes} (inside : k + n ≤ data.length)
    (room : pos + data.length ≤ 1088) : (m.fwrite pos data).fread (pos + k) n = (data.drop k).take n := by
  refine ext_getElem? fun i => ?_
  rw [getElem?_fread,getElem?_fwrite,getElem?_take,getElem?_drop]
  split
  · rw [getElem?_eq_getElem (show base + (pos + k) + i < m.1.length by omega),Option.map_some,
      if_pos (by omega),show base + (pos + k) + i - (base + pos) = k + i by omega,
      getElem?_eq_getElem (show k + i < data.length by omega),Option.getD_some]
  · rfl

private theorem happens_stage (m : Misc base) (e : Event) : (happens m e).fread 832 32 = m.fread 832 32 := by
  cases e with
  | reboot_now =>
    refine ext_getElem? fun i => ?_
    rw [getElem?_fread,getElem?_fread,happens,RebootNowFn,fwrite_apart m (by simp; omega)]
  | recovery oemlock file argv =>
    obtain ⟨boot,saved⟩ : ∃ boot, boot = (get_args oemlock (get_bootloader_message_block m) file argv).boot := ⟨_,rfl⟩
    have status : boot.status.length = 32 := by rw [saved]; exact length_fread m (by decide)
    have reserved : boot.reserved.length = 224 := by rw [saved]; exact length_fread m (by decide)
    have stage : boot.stage = m.fread 832 32 := by rw [saved]; rfl
    have length : boot.stage.length = 32 := by rw [stage,length_fread m (by decide)]
    have command := boot.command_length
    have recovery := boot.recovery_length
    have front : (boot.command ++ boot.status ++ boot.recovery).length = 832 := by simp [command,status,recovery]
    have all : (boot.command ++ boot.status ++ boot.recovery ++ boot.stage ++ boot.reserved).length = 1088 := by
      simp [command,status,recovery,length,reserved]
    rw [happens,← saved,set_bootloader_message_block,← stage,← Nat.zero_add 832,
      fread_inside m (by rw [all]; decide) (by rw [all]),append_assoc,
      drop_left' front,take_left' length]

private theorem fread_add (m : Misc base) (pos n k : Nat) : m.fread pos (n + k) = m.fread pos n ++ m.fread (pos + n) k := by
  rw [Misc.fread,take_add,drop_drop,Nat.add_assoc]
  rfl
theorem getStage_set (m : Misc base) {s : Bytes} (plain : Plain s) : GetStageFn (SetStageFn m s) = s.take 31 := by
  have data : (if 32 < s.length + 1 then s.take 31 ++ [0] else s ++ [0]) = s.take 31 ++ [0] := by
    split
    · rfl
    · rw [take_of_length_le (by omega)]
  obtain ⟨k,short⟩ : ∃ k, 32 = (s.take 31 ++ [0]).length + k :=
    ⟨32 - (s.take 31 ++ [0]).length,by simp; omega⟩
  have front : (m.fwrite 832 (s.take 31 ++ [0])).fread (832 + 0) _ = _ :=
    fread_inside m (by rw [Nat.zero_add]) (by simp; omega)
  rw [GetStageFn,SetStageFn,data,cstring,takeWhile_set rfl (by rw [length_fread _ (by decide)]; decide),short,
    fread_add,front,drop_zero,take_length,append_assoc,
    takeWhile_append_of_pos fun c member => by simpa using plain_take plain 31 c member]
  simp [take_take]

/-- The stage that was set is returned, after any number of reboots and starts of recovery as well, and
    nothing else of the device is changed by setting it. -/
theorem set_stage_lasts (m : Misc base) {s : Bytes} (plain : Plain s) (events : List Event) :
    GetStageFn (SetStageFn m s) = s.take 31 ∧ GetStageFn (events.foldl happens (SetStageFn m s)) = s.take 31 ∧
    ∀ i, i < base + 832 ∨ base + 864 ≤ i → (SetStageFn m s).1[i]? = m.1[i]? := by
  have lasts : ∀ n : Misc base, GetStageFn (events.foldl happens n) = GetStageFn n := by
    induction events with
    | nil => exact fun _ => rfl
    | cons e rest ih =>
      intro n
      rw [foldl_cons, ih, GetStageFn, happens_stage, GetStageFn]
  refine ⟨getStage_set m plain, (lasts _).trans (getStage_set m plain), fun i outside => ?_⟩
  exact fwrite_apart m (by split <;> simp <;> omega)
theorem second_of_three_lasts : Plain (ascii "2/3") ∧
    let m : Misc 0 := ⟨List.replicate 1088 255, length_replicate.ge⟩
    GetStageFn (happens (happens (SetStageFn m (ascii "2/3")) .reboot_now) (.recovery false none [[]])) = ascii "2/3" := by
  have plain : Plain (ascii "2/3") := by unfold Plain; decide +kernel
  exact ⟨plain, (set_stage_lasts _ plain [.reboot_now, .recovery false none [[]]]).2.1⟩

end Recovery.StageField
