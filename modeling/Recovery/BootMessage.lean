import Mathlib.Data.List.TakeWhile
import Recovery.Memory
import Recovery.Tokens

/-!
The arguments of recovery (`get_args`), which are kept in the bootloader control block so
that recovery goes on with them after a reboot, until `finish_recovery` erases the block.
-/
namespace Recovery.BootMessage
open Memory Tokens List

/-! ## The model -/

def cstring (field : Bytes) : Bytes := field.takeWhile (· != 0)
def putString (field text : Bytes) : Bytes := text ++ 0 :: field.drop (text.length + 1)
def strlcpy (field src : Bytes) : Bytes := putString field (src.take (field.length - 1))
def strlcat (field src : Bytes) : Bytes :=
  if (cstring field).length < field.length then putString field ((cstring field ++ src).take (field.length - 1))
  else field

structure BootloaderMessage where
  command : Bytes
  status : Bytes
  recovery : Bytes
  stage : Bytes
  reserved : Bytes
  command_length : command.length = 32
  recovery_length : recovery.length = 768

def MAX_ARG_LENGTH : Nat := 4096
def MAX_ARGS : Nat := 100
def oemunlock : Bytes := ascii "--oemunlock"
def newline (c : UInt8) : Bool := c == 10
def lineEnd (c : UInt8) : Bool := c == 13 || c == 10

/-- The arguments among the tokens of the boot message, as many as there are slots for. With
    `HAVE_OEMLOCK`, `--oemunlock` is no argument. -/
def bootTokens (oemlock : Bool) : Nat → List Bytes → List Bytes
  | _, [] => []
  | 0, _ => []
  | slots + 1, arg :: rest =>
    if oemlock && arg == oemunlock then bootTokens oemlock (slots + 1) rest else arg :: bootTokens oemlock slots rest
def bootArgs (oemlock : Bool) (boot : BootloaderMessage) : Option (List Bytes) :=
  match tokens newline (cstring (boot.recovery.set 767 0)) with
  | [] => none
  | arg :: rest => if arg = ascii "recovery" then some (arg :: bootTokens oemlock (MAX_ARGS - 1) rest) else none

/-- At most `size - 1` bytes, up to the end of the line. -/
def fgets (size : Nat) (file : Bytes) : Option (Bytes × Bytes) :=
  if file = [] then none
  else
    let count := min ((file.takeWhile (!newline ·)).length + 1) (size - 1)
    some (file.take count, file.drop count)
/-- The lines that `fgets` returns; each takes something from the file, so there are at most
    `fuel`. -/
def fileLines : Nat → Bytes → List Bytes
  | 0, _ => []
  | fuel + 1, file =>
    match fgets MAX_ARG_LENGTH file with
    | none => []
    | some (line, rest) => line :: fileLines fuel rest
/-- The arguments among the lines, as many as there are slots for. -/
def fileTokens : Nat → List Bytes → List Bytes
  | _, [] => []
  | 0, _ => []
  | slots + 1, line :: rest =>
    match (tokens lineEnd (cstring line)).head? with
    | some token => token :: fileTokens slots rest
    | none => fileTokens (slots + 1) rest
def fileArgs (file : Option Bytes) : List Bytes :=
  match file with
  | none => []
  | some content => fileTokens (MAX_ARGS - 1) (fileLines content.length content)

variable {field : Bytes} {oemlock : Bool} {text : Bytes} {args : List Bytes} {boot : BootloaderMessage}

theorem length_putString (less : text.length < field.length) :
    (putString field text).length = field.length := by
  simp only [putString,length_append,length_cons,length_drop]
  omega
theorem length_strlcpy (some : 0 < field.length) (src : Bytes) :
    (strlcpy field src).length = field.length := by
  apply length_putString
  rw [length_take]
  omega
theorem length_strlcat (src : Bytes) : (strlcat field src).length = field.length := by
  unfold strlcat
  split
  · apply length_putString
    rw [length_take]
    omega
  · rfl

def joinArgs (field : Bytes) (args : List Bytes) : Bytes :=
  args.foldl (fun field arg => strlcat (strlcat field arg) [10]) (strlcpy field (ascii "recovery\n"))

private theorem length_joinArgs (some : 0 < field.length) (args : List Bytes) :
    (joinArgs field args).length = field.length := by
  have loop (args : List Bytes) : ∀ start : Bytes,
      (args.foldl (fun field arg => strlcat (strlcat field arg) [10]) start).length = start.length := by
    induction args with
    | nil => exact fun _ => rfl
    | cons arg args ih =>
      intro start
      rw [foldl_cons,ih,length_strlcat,length_strlcat]
  rw [joinArgs,loop,length_strlcpy some]

def saveArgs (boot : BootloaderMessage) (args : List Bytes) : BootloaderMessage where
  command := strlcpy boot.command (ascii "boot-recovery")
  status := boot.status
  recovery := joinArgs boot.recovery args
  stage := boot.stage
  reserved := boot.reserved
  command_length := by rw [length_strlcpy (by rw [boot.command_length]; decide), boot.command_length]
  recovery_length := by rw [length_joinArgs (by rw [boot.recovery_length]; decide), boot.recovery_length]

structure Outcome where
  argv : List Bytes
  boot : BootloaderMessage

/-- The command line that `get_args` ends with, and the message that it writes. The file is the
    command file, if it can be opened. -/
def get_args (oemlock : Bool) (boot : BootloaderMessage) (file : Option Bytes) (argv : List Bytes) : Outcome :=
  let argv := if argv.length ≤ 1 then (bootArgs oemlock boot).getD argv else argv
  let argv := if argv.length ≤ 1 then argv.take 1 ++ fileArgs file else argv
  ⟨argv, saveArgs boot (argv.drop 1)⟩

/-- One reboot after another, each with the program name and the command file that are then
    there. -/
def reboots (oemlock : Bool) : BootloaderMessage → List (Bytes × Option Bytes) → List Outcome
  | _, [] => []
  | boot, (name, file) :: rest =>
    get_args oemlock boot file [name] :: reboots oemlock (get_args oemlock boot file [name]).boot rest

/-! ## What is written back -/

def Plain (text : Bytes) : Prop := ∀ c ∈ text, c ≠ 0

theorem cstring_putString (plain : Plain text) (field : Bytes) : cstring (putString field text) = text := by
  unfold cstring putString
  rw [takeWhile_append_of_pos fun c member => by simpa using plain c member]
  simp
theorem plain_cstring (field : Bytes) : Plain (cstring field) := by
  intro c member
  simpa using mem_takeWhile_imp member
theorem plain_take (plain : Plain text) (n : Nat) : Plain (text.take n) :=
  fun c member => plain c (mem_of_mem_take member)
private theorem plain_append {front back : Bytes} (first : Plain front) (second : Plain back) : Plain (front ++ back) := by
  intro c member
  rcases mem_append.mp member with known | known
  · exact first c known
  · exact second c known

private theorem take_take_append (n : Nat) (front back : Bytes) : (front.take n ++ back).take n = (front ++ back).take n := by
  rw [take_append,take_append,take_take,Nat.min_self,length_take]
  congr 1
  rcases Nat.le_total n front.length with long | short
  · rw [Nat.min_eq_left long,Nat.sub_self,Nat.sub_eq_zero_of_le long]
  · rw [Nat.min_eq_right short]

theorem cstring_strlcat {src : Bytes} {n : Nat} (length : field.length = n + 1)
    (holds : cstring field = text.take n) (plain : Plain src) : cstring (strlcat field src) = (text ++ src).take n := by
  have short : (cstring field).length < field.length := by
    rw [holds,length_take]
    omega
  rw [strlcat,if_pos short,cstring_putString (plain_take (plain_append (plain_cstring field) plain) _),holds,length,
    Nat.add_sub_cancel,take_take_append]

def commandLine (args : List Bytes) : Bytes := (ascii "recovery" :: args).flatMap fun arg => arg ++ [10]

private theorem cstring_joinArgs {n : Nat} (length : field.length = n + 1)
    (plain : ∀ arg ∈ args, Plain arg) : cstring (joinArgs field args) = (commandLine args).take n := by
  have loop {args : List Bytes} : (∀ arg ∈ args, Plain arg) → ∀ {start text : Bytes}, start.length = n + 1 →
      cstring start = text.take n → cstring (args.foldl (fun field arg => strlcat (strlcat field arg) [10]) start) =
        (text ++ args.flatMap fun arg => arg ++ [10]).take n := by
    induction args with
    | nil =>
      intro _ start text _ holds
      rw [foldl_nil,holds,flatMap_nil,append_nil]
    | cons arg args ih =>
      intro plain start text length holds
      have first := cstring_strlcat length holds (plain arg mem_cons_self)
      have second := cstring_strlcat (by rw [length_strlcat,length]) first (show Plain [10] by simp [Plain])
      rw [foldl_cons,ih (fun other member => plain other (mem_cons_of_mem arg member))
        (by rw [length_strlcat,length_strlcat,length]) second,flatMap_cons]
      simp only [append_assoc]
  have start : cstring (strlcpy field (ascii "recovery\n")) = (ascii "recovery\n").take n := by
    rw [strlcpy,length,Nat.add_sub_cancel]
    exact cstring_putString (plain_take (by unfold Plain; decide +kernel) n) field
  rw [joinArgs,loop plain (by rw [length_strlcpy (by omega),length]) start]
  rfl

/-! ## What is read again -/

theorem takeWhile_set {test : UInt8 → Bool} {c : UInt8} (stops : test c = false) {n : Nat}
    (inside : n < field.length) : (field.set n c).takeWhile test = (field.takeWhile test).take n := by
  induction field generalizing n with
  | nil => simp at inside
  | cons x field ih =>
    cases n with
    | zero => simp [stops]
    | succ n =>
      rw [set_cons_succ,takeWhile_cons,takeWhile_cons]
      cases test x with
      | false => rfl
      | true => simp [ih (by simpa using inside)]
theorem cstring_terminated (boot : BootloaderMessage) :
    cstring (boot.recovery.set 767 0) = (cstring boot.recovery).take 767 :=
  takeWhile_set rfl (by rw [boot.recovery_length]; decide)

/-- An argument that can be stored: not empty, without line ends and zero bytes. -/
structure Argument (arg : Bytes) : Prop where
  word : Word newline arg
  plain : Plain arg

/-- The command line fits into the field, if need be without its last line end. -/
def Fits (args : List Bytes) : Prop := room (ascii "recovery" :: args) ≤ 768

private theorem length_commandLine (args : List Bytes) : (commandLine args).length = room (ascii "recovery" :: args) := by
  rw [commandLine,length_flatMap,room]
  simp

private theorem tokens_commandLine (areArgs : ∀ arg ∈ args, Argument arg) (fits : Fits args) :
    tokens newline ((commandLine args).take 767) = ascii "recovery" :: args := by
  have words : ∀ arg ∈ ascii "recovery" :: args, Word newline arg := by
    intro arg member
    rcases mem_cons.mp member with rfl | known
    · exact ⟨by decide,by decide +kernel⟩
    · exact (areArgs arg known).word
  have length := length_commandLine args
  unfold Fits at fits
  rcases Nat.lt_or_ge (room (ascii "recovery" :: args)) 768 with less | exact
  · rw [take_of_length_le (by omega)]
    have all := tokens_lines words (c := 10) rfl []
    rw [append_nil,show tokens newline [] = [] from rfl,append_nil] at all
    exact all
  · have last : (commandLine args).take 767 = (commandLine args).dropLast := by
      rw [dropLast_eq_take,length]
      congr 1
      omega
    rw [last]
    exact tokens_dropLast words rfl

/-! ## The arguments -/

private theorem bootTokens_sublist (oemlock : Bool) (slots : Nat) (args : List Bytes) :
    (bootTokens oemlock slots args).Sublist args := by
  induction args generalizing slots with
  | nil => cases slots <;> exact .slnil
  | cons arg args ih =>
    cases slots with
    | zero => exact nil_sublist _
    | succ slots =>
      rw [bootTokens]
      split
      · exact (ih (slots + 1)).cons arg
      · exact (ih slots).cons_cons arg
private theorem length_bootTokens (oemlock : Bool) (slots : Nat) (args : List Bytes) :
    (bootTokens oemlock slots args).length ≤ slots := by
  induction args generalizing slots with
  | nil => cases slots <;> simp [bootTokens]
  | cons arg args ih =>
    cases slots with
    | zero => exact le_rfl
    | succ slots =>
      rw [bootTokens]
      split
      · exact ih (slots + 1)
      · exact Nat.succ_le_succ (ih slots)
theorem oemunlock_bootTokens (slots : Nat) (args : List Bytes) : oemunlock ∉ bootTokens true slots args := by
  induction args generalizing slots with
  | nil => cases slots <;> simp [bootTokens]
  | cons arg args ih =>
    cases slots with
    | zero => simp [bootTokens]
    | succ slots =>
      rw [bootTokens]
      split
      · exact ih (slots + 1)
      rename_i other
      rw [mem_cons]
      rintro (same | later)
      · simp [← same] at other
      · exact ih slots later
theorem bootTokens_all (allowed : oemlock = true → oemunlock ∉ args) {slots : Nat}
    (enough : args.length ≤ slots) : bootTokens oemlock slots args = args := by
  induction args generalizing slots with
  | nil => cases slots <;> rfl
  | cons arg args ih =>
    obtain ⟨slots,rfl⟩ : ∃ n, slots = n + 1 := ⟨slots - 1,by simp at enough; omega⟩
    have later := ih (fun on member => allowed on (mem_cons_of_mem arg member)) (by simpa using enough)
    rw [bootTokens,if_neg,later]
    intro skipped
    simp only [Bool.and_eq_true,beq_iff_eq] at skipped
    exact allowed skipped.1 (by simp [skipped.2])

theorem fileTokens_args {slots : Nat} {lines : List Bytes} {arg : Bytes} (member : arg ∈ fileTokens slots lines) :
    Argument arg := by
  induction lines generalizing slots with
  | nil => cases slots <;> cases member
  | cons line lines ih =>
    cases slots with
    | zero => cases member
    | succ slots =>
      rw [fileTokens] at member
      split at member
      · rename_i token first
        rcases mem_cons.mp member with rfl | later
        · obtain ⟨word,inside⟩ := tokens_are_words (mem_of_mem_head? first)
          refine ⟨⟨word.some,fun c known => ?_⟩,fun c known => plain_cstring line c (inside known)⟩
          have := word.clean c known
          simp only [lineEnd,Bool.or_eq_false_iff] at this
          exact this.2
        · exact ih later
      · exact ih member
theorem length_fileTokens (slots : Nat) (lines : List Bytes) : (fileTokens slots lines).length ≤ slots := by
  induction lines generalizing slots with
  | nil => cases slots <;> simp [fileTokens]
  | cons line lines ih =>
    cases slots with
    | zero => exact le_rfl
    | succ slots =>
      rw [fileTokens]
      split
      · exact Nat.succ_le_succ (ih slots)
      · exact ih (slots + 1)

/-- What can be said of any command line that is read. -/
structure Accepted (args : List Bytes) : Prop where
  each : ∀ arg ∈ args, Argument arg
  count : args.length ≤ MAX_ARGS - 1
theorem fileArgs_accepted (file : Option Bytes) : Accepted (fileArgs file) := by
  cases file with
  | none => exact ⟨by simp [fileArgs],by simp [fileArgs]⟩
  | some content => exact ⟨fun arg member => fileTokens_args member,length_fileTokens _ _⟩
theorem bootArgs_accepted {argv : List Bytes}
    (found : bootArgs oemlock boot = some argv) : ∃ args, argv = ascii "recovery" :: args ∧ Accepted args ∧ Fits args ∧
      (oemlock = true → oemunlock ∉ args) := by
  unfold bootArgs at found
  rw [cstring_terminated] at found
  split at found
  · cases found
  rename_i arg rest split
  split at found
  · rename_i first
    obtain rfl := Option.some.inj found
    have sublist := bootTokens_sublist oemlock (MAX_ARGS - 1) rest
    refine ⟨_,by rw [first],⟨fun other member => ?_,length_bootTokens oemlock _ rest⟩,?_,?_⟩
    · obtain ⟨word,inside⟩ := tokens_are_words (split ▸ mem_cons_of_mem arg (sublist.subset member))
      exact ⟨word,fun c known => plain_take (plain_cstring _) 767 c (inside known)⟩
    · have total := room_tokens newline ((cstring boot.recovery).take 767)
      rw [split] at total
      have less := room_sublist (sublist.cons_cons arg)
      have short : ((cstring boot.recovery).take 767).length ≤ 767 := length_take_le _ _
      rw [Fits,← first]
      omega
    · rintro rfl
      exact oemunlock_bootTokens _ rest
  · cases found

/-! ## Reboots -/

theorem bootArgs_saveArgs (accepted : Accepted args) (fits : Fits args)
    (allowed : oemlock = true → oemunlock ∉ args) (boot : BootloaderMessage) :
    bootArgs oemlock (saveArgs boot args) = some (ascii "recovery" :: args) := by
  have stored : cstring (saveArgs boot args).recovery = (commandLine args).take 767 :=
    cstring_joinArgs boot.recovery_length fun arg member => (accepted.each arg member).plain
  rw [bootArgs,cstring_terminated,stored,take_take,Nat.min_self,tokens_commandLine accepted.each fits]
  dsimp only
  rw [if_pos rfl,bootTokens_all allowed accepted.count]

theorem get_args_boot {argv : List Bytes}
    (found : bootArgs oemlock boot = some argv) (more : 1 < argv.length) (file : Option Bytes) (name : Bytes) :
    get_args oemlock boot file [name] = ⟨argv,saveArgs boot (argv.drop 1)⟩ := by
  simp only [get_args,found,Option.getD_some,length_singleton,le_refl,if_true,if_neg (not_le.mpr more)]
theorem get_args_file
    (none : ∀ argv, bootArgs oemlock boot = some argv → argv.length ≤ 1) (file : Option Bytes) (name : Bytes) :
    (get_args oemlock boot file [name]).argv.drop 1 = fileArgs file := by
  have short : ((bootArgs oemlock boot).getD [name]).length ≤ 1 := by
    cases found : bootArgs oemlock boot with
    | none => exact le_rfl
    | some argv => exact none argv found
  have one : ((bootArgs oemlock boot).getD [name]).length = 1 := by
    refine le_antisymm short ?_
    cases found : bootArgs oemlock boot with
    | none => exact le_rfl
    | some argv =>
      obtain ⟨args,rfl,-⟩ := bootArgs_accepted found
      simp
  simp only [get_args,length_singleton,le_refl,if_true,if_pos short]
  rw [drop_append,drop_of_length_le (by simp),nil_append,length_take,one]
  simp

/-- The arguments come from the message, or they fit into it and none of them is passed over
    there. -/
def Kept (oemlock : Bool) (boot : BootloaderMessage) (file : Option Bytes) : Prop :=
  (∃ argv, bootArgs oemlock boot = some argv ∧ 1 < argv.length) ∨
    Fits (fileArgs file) ∧ (oemlock = true → oemunlock ∉ fileArgs file)

theorem kept_iff (oemlock : Bool) (boot : BootloaderMessage) (file : Option Bytes) (name : Bytes) :
    let args := (get_args oemlock boot file [name]).argv.drop 1
    Accepted args ∧ (Kept oemlock boot file ↔ Fits args ∧ (oemlock = true → oemunlock ∉ args)) := by
  intro args
  by_cases fromBoot : ∃ argv, bootArgs oemlock boot = some argv ∧ 1 < argv.length
  · obtain ⟨argv,found,more⟩ := fromBoot
    obtain ⟨rest,rfl,accepted,fits,allowed⟩ := bootArgs_accepted found
    have same : args = rest := by
      dsimp only [args]
      rw [get_args_boot found more]
      rfl
    rw [same]
    exact ⟨accepted,fun _ => ⟨fits,allowed⟩,fun _ => .inl ⟨_,found,more⟩⟩
  · have same : args = fileArgs file :=
      get_args_file (fun argv found => not_lt.mp fun more => fromBoot ⟨argv,found,more⟩) file name
    rw [same,Kept,or_iff_right fromBoot]
    exact ⟨fileArgs_accepted file,Iff.rfl⟩

theorem reboots_keep (some : args ≠ []) (accepted : Accepted args) (fits : Fits args)
    (allowed : oemlock = true → oemunlock ∉ args) {boots : List (Bytes × Option Bytes)}
    {out : Outcome} (member : out ∈ reboots oemlock (saveArgs boot args) boots) :
    out.argv.drop 1 = args ∧ out.boot.stage = boot.stage := by
  induction boots generalizing boot with
  | nil => cases member
  | cons first boots ih =>
    obtain ⟨name,file⟩ := first
    have more : 1 < (ascii "recovery" :: args).length := by
      have := length_pos_iff.mpr some
      rw [length_cons]
      omega
    rw [reboots,get_args_boot (bootArgs_saveArgs accepted fits allowed boot) more] at member
    rcases mem_cons.mp member with rfl | later
    · exact ⟨rfl,rfl⟩
    · have same : out.argv.drop 1 = args ∧ out.boot.stage = (saveArgs boot args).stage := ih later
      exact same

/-- The arguments that recovery was started with are there again after every reboot, whatever has
    become of the command file, exactly when they are kept in the message. -/
theorem args_survive_reboots_iff (oemlock : Bool) (boot : BootloaderMessage) (file : Option Bytes) (name : Bytes)
    (some : (get_args oemlock boot file [name]).argv.drop 1 ≠ []) :
    (∀ boots, ∀ out ∈ reboots oemlock (get_args oemlock boot file [name]).boot boots,
      out.argv.drop 1 = (get_args oemlock boot file [name]).argv.drop 1 ∧ out.boot.stage = boot.stage) ↔
    Kept oemlock boot file := by
  obtain ⟨accepted, kept⟩ := kept_iff oemlock boot file name
  have saved : (get_args oemlock boot file [name]).boot =
      saveArgs boot ((get_args oemlock boot file [name]).argv.drop 1) := rfl
  rw [kept, saved]
  generalize (get_args oemlock boot file [name]).argv.drop 1 = args at some accepted
  constructor
  · intro all
    have again := (all [(name, none)] _ mem_cons_self).1
    by_cases fromBoot : ∃ argv, bootArgs oemlock (saveArgs boot args) = Option.some argv ∧ 1 < argv.length
    · obtain ⟨argv, found, more⟩ := fromBoot
      obtain ⟨rest, rfl, -, fits, allowed⟩ := bootArgs_accepted found
      rw [get_args_boot found more] at again
      obtain rfl : rest = args := again
      exact ⟨fits, allowed⟩
    · rw [get_args_file fun argv found => not_lt.mp fun more => fromBoot ⟨argv, found, more⟩] at again
      exact absurd again.symm some
  · rintro ⟨fits, allowed⟩ boots out member
    exact reboots_keep some accepted fits allowed member

def blank : BootloaderMessage where
  command := List.replicate 32 0
  status := List.replicate 32 0
  recovery := List.replicate 768 0
  stage := List.replicate 32 0
  reserved := List.replicate 224 0
  command_length := rfl
  recovery_length := by rw [length_replicate]

/-- One argument that is too long for the message by one byte. -/
theorem long_argument_cut :
    ((get_args false blank (some (List.replicate 759 97)) [[114]]).argv.drop 1).map List.length = [759] ∧
    (reboots false (get_args false blank (some (List.replicate 759 97)) [[114]]).boot [([114], none)]).map
      (fun out => (out.argv.drop 1).map List.length) = [[758]] := by
  decide +kernel

/-- With a short argument the condition is met. -/
theorem args_survive_reboots_of_wipe : (get_args true blank (some (ascii "--wipe_data\n")) [[114]]).argv.drop 1 ≠ [] ∧
    ((∀ boots, ∀ out ∈ reboots true (get_args true blank (some (ascii "--wipe_data\n")) [[114]]).boot boots,
      out.argv.drop 1 = (get_args true blank (some (ascii "--wipe_data\n")) [[114]]).argv.drop 1 ∧
        out.boot.stage = blank.stage) ↔ Kept true blank (some (ascii "--wipe_data\n"))) := by
  have some : (get_args true blank (some (ascii "--wipe_data\n")) [[114]]).argv.drop 1 ≠ [] := by decide +kernel
  exact ⟨some, args_survive_reboots_iff true blank _ [114] some⟩

end Recovery.BootMessage
