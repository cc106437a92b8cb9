import Recovery.MtdStreams

/-!
The bootloader message on MTD (bootloader.cpp). It is the beginning of the second of three pages, which are
read into a buffer and written back as a whole.
-/
namespace Recovery.BootMtd
open Memory Mtd MtdBlocks MtdStreams List Option

def MISC_PAGES : Nat := 3
/-- `sizeof(struct bootloader_message)`. -/
def messageSize : Nat := 32 + 32 + 768 + 32 + 224

/-- `outside`: memory outside of the page buffer is accessed. -/
inductive Outcome (α : Type) where
  | ok (a : α)
  | failed
  | outside
def Outcome.isOk {α : Type} : Outcome α → Bool
  | .ok _ => true
  | _ => false

section
variable {p : MtdPartition} (chip : Chip p) (write_size : Nat)

/-- The pages as `mtd_read_data` returns them; `errors` is the count of errors so far. -/
def pages (flash : Flash p) (errors : Nat) : Option Bytes :=
  (readPartition chip flash errors [write_size * MISC_PAGES]).map List.flatten

def get_bootloader_message_mtd (flash : Flash p) (errors : Nat) : Outcome Bytes :=
  match pages chip write_size flash errors with
  | none => .failed
  | some data =>
    if write_size + messageSize ≤ data.length then .ok ((data.drop write_size).take messageSize) else .outside

/-- The buffer with a message. -/
def withMessage (data message : Bytes) : Bytes :=
  data.take write_size ++ message ++ data.drop (write_size + messageSize)
def set_bootloader_message_mtd (flash : Flash p) (errors : Nat) (message : Bytes) (closed : Bool) : Outcome (Flash p) :=
  match pages chip write_size flash errors with
  | none => .failed
  | some data =>
    if write_size + messageSize ≤ data.length then
      match writePartition chip flash [withMessage write_size data message] closed with
      | none => .failed
      | some ctx => .ok ctx.flash
    else .outside

/-- Both functions stay inside the buffer, and what is set is got, with the other bytes of the pages unchanged. -/
def Right (flash : Flash p) (errors : Nat) (message : Bytes) (closed : Bool) : Prop :=
  get_bootloader_message_mtd chip write_size flash errors ≠ .outside ∧
  set_bootloader_message_mtd chip write_size flash errors message closed ≠ .outside ∧
  ∀ flash' errors', set_bootloader_message_mtd chip write_size flash errors message closed = .ok flash' →
    get_bootloader_message_mtd chip write_size flash' errors' = .ok message ∧
    ∃ data data', pages chip write_size flash errors = some data ∧ pages chip write_size flash' errors' = some data' ∧
      data'.take write_size = data.take write_size ∧
      data'.drop (write_size + messageSize) = data.drop (write_size + messageSize)

/-- MTD reads return what was written. -/
def Faithful : Prop := ∀ flash writes closed ctx, writePartition chip flash writes closed = some ctx →
  Returns chip ctx.flash (padded p.erase_size writes.flatten)

variable {chip write_size}

theorem pages_length {flash : Flash p} {errors : Nat} {data : Bytes}
    (read : pages chip write_size flash errors = some data) : data.length = write_size * MISC_PAGES := by
  obtain ⟨pieces,reads,rfl⟩ := map_eq_some_iff.mp read
  rcases readPartition_spec chip (rfl : contents flash _ = _) errors [write_size * MISC_PAGES] with
    ⟨_,fails⟩ | ⟨found,_,same,_,lengths⟩
  · rw [fails] at reads
    cases reads
  · obtain rfl := some.inj (same.symm.trans reads)
    rw [length_flatten,lengths,sum_singleton]

private theorem pages_written (faithful : Faithful chip) {flash : Flash p} {data : Bytes} {closed : Bool} {ctx : Writing p}
    (size : data.length = write_size * MISC_PAGES) (written : writePartition chip flash [data] closed = some ctx)
    (errors : Nat) : pages chip write_size ctx.flash errors = some data := by
  obtain ⟨pieces,reads,same,_⟩ := faithful flash [data] closed ctx written errors [write_size * MISC_PAGES]
    (by simp [padded,size])
  rw [pages,reads,map_some,same]
  simp [padded,← size]

private theorem right_of_fits (faithful : Faithful chip) (fits : write_size + messageSize ≤ write_size * MISC_PAGES)
    {message : Bytes} (length : message.length = messageSize) (flash : Flash p) (errors : Nat) (closed : Bool) :
    Right chip write_size flash errors message closed := by
  unfold Right get_bootloader_message_mtd set_bootloader_message_mtd
  cases read : pages chip write_size flash errors with
  | none => exact ⟨nofun,nofun,nofun⟩
  | some data =>
    have size := pages_length read
    have before : (data.take write_size).length = write_size := by rw [length_take]; omega
    have whole : (withMessage write_size data message).length = write_size * MISC_PAGES := by
      simp only [withMessage,length_append,length_drop,before,length]
      omega
    simp only [size,if_pos fits]
    cases written : writePartition chip flash [withMessage write_size data message] closed with
    | none => exact ⟨nofun,nofun,nofun⟩
    | some ctx =>
      refine ⟨nofun,nofun,fun flash' errors' done => ?_⟩
      cases done
      have again := pages_written faithful whole written errors'
      simp only [again,whole,if_pos fits]
      refine ⟨?_,data,_,rfl,rfl,?_,?_⟩
      · rw [withMessage,append_assoc,drop_left' before,take_left' length]
      · rw [withMessage,append_assoc,take_left' before]
      · rw [withMessage,drop_left' (by rw [length_append,before,length])]

variable (chip)

/-- For every write size, the message is set and got as it should be exactly if the size is not 512, or if the
    pages cannot be read. -/
theorem message_right_iff (faithful : Faithful chip) {k : Nat} (large : 512 ≤ 2 ^ k) {message : Bytes}
    (length : message.length = messageSize) (flash : Flash p) (errors : Nat) (closed : Bool) :
    Right chip (2 ^ k) flash errors message closed ↔ 2 ^ k ≠ 512 ∨ pages chip (2 ^ k) flash errors = none := by
  constructor
  · intro right
    rw [or_iff_not_imp_left, not_not]
    intro small
    cases read : pages chip (2 ^ k) flash errors with
    | none => rfl
    | some data =>
      refine absurd ?_ right.1
      rw [get_bootloader_message_mtd, read]
      exact if_neg (by rw [pages_length read, small]; decide)
  · rintro (other | fails)
    · refine right_of_fits faithful ?_ length flash errors closed
      have more : 9 < k := by
        have : 9 ≤ k := (Nat.pow_le_pow_iff_right (by decide)).mp (show 2 ^ 9 ≤ 2 ^ k from large)
        exact lt_of_le_of_ne this fun same => other (by rw [← same]; rfl)
      have : 2 ^ 10 ≤ 2 ^ k := Nat.pow_le_pow_right (by decide) more
      simp only [messageSize, MISC_PAGES]
      omega
    · simp [Right, get_bootloader_message_mtd, set_bootloader_message_mtd, fails]

end

/-- A chip that does everything right, with some bad blocks that it knows of. -/
def goodChip (p : MtdPartition) (bad : Nat → Bool) : Chip p where
  badBlock k := if bad k then .bad else .good
  attempt _ _ data := ⟨true, true, (data ++ List.replicate p.erase_size 0).take p.erase_size⟩
  erase _ _ := List.replicate p.erase_size 255
  readable _ := true
  failures _ := 0
  badWhenRead k := if bad k then .bad else .good
  attempt_length _ _ _ := by simp
  erase_length _ _ := length_replicate
theorem goodChip_faithful {p : MtdPartition} (bad : Nat → Bool) (small : p.size < 2 ^ 31) :
    Faithful (goodChip p bad) := by
  have factory : Factory (goodChip p bad) bad := by
    refine ⟨fun k wrong => ?_,fun k fine => ?_,fun _ _ => ⟨rfl,rfl⟩,fun k data _ length => ?_⟩
    · simp [goodChip,wrong]
    · simp [goodChip,fine]
    · simp [goodChip,take_left' length]
  refine (reads_return_writes_iff factory small).mpr fun k _ _ => ?_
  cases k <;> rfl

/-- Two erase blocks of three pages of 2048 bytes. -/
def sixPages : MtdPartition := ⟨12288, 6144, by decide⟩
def zeros (p : MtdPartition) : Flash p := ⟨fun _ => List.replicate p.erase_size 0, fun _ => length_replicate⟩
/-- The first block is bad: the message is written to the pages of the second one, and got from there. -/
theorem past_bad_block_right : Faithful (goodChip sixPages (· == 0)) ∧ 512 ≤ 2 ^ 11 ∧
    ∃ flash, set_bootloader_message_mtd (goodChip sixPages (· == 0)) (2 ^ 11) (zeros sixPages) 0
        (List.replicate messageSize 7) true = .ok flash ∧
      get_bootloader_message_mtd (goodChip sixPages (· == 0)) (2 ^ 11) flash 0 = .ok (List.replicate messageSize 7) := by
  have faithful := goodChip_faithful (p := sixPages) (· == 0) (by decide)
  have right := (message_right_iff _ faithful (k := 11) (by decide) (length_replicate (a := 7)) (zeros sixPages) 0 true).mpr
    (.inl (by decide))
  refine ⟨faithful, by decide, ?_⟩
  cases set : set_bootloader_message_mtd (goodChip sixPages (· == 0)) (2 ^ 11) (zeros sixPages) 0
      (List.replicate messageSize 7) true with
  | ok flash => exact ⟨flash, rfl, (right.2.2 flash 0 set).1⟩
  | outside => exact absurd set right.2.1
  | failed =>
    have sets : (set_bootloader_message_mtd (goodChip sixPages (· == 0)) (2 ^ 11) (zeros sixPages) 0
      (List.replicate messageSize 7) true).isOk := by decide +kernel
    rw [set] at sets
    cases sets

/-- One erase block of three pages of 512 bytes. -/
def threePages : MtdPartition := ⟨1536, 1536, by decide⟩
theorem smallPages_not_right : Faithful (goodChip threePages fun _ => false) ∧
    ¬ Right (goodChip threePages fun _ => false) 512 (zeros threePages) 0 (List.replicate messageSize 0) true := by
  refine ⟨goodChip_faithful _ (by decide), fun right => right.1 ?_⟩
  obtain ⟨data, read⟩ : ∃ data, pages (goodChip threePages fun _ => false) 512 (zeros threePages) 0 = some data :=
    Option.isSome_iff_exists.mp (by decide +kernel)
  rw [get_bootloader_message_mtd, read]
  exact if_neg (by rw [pages_length read]; decide)

end Recovery.BootMtd
