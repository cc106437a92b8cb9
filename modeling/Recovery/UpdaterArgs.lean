import Recovery.Updater

/-!
What the functions with any number of arguments do when an argument evaluates to `NULL`: the
arguments before it were evaluated, and those after it must not be.
-/
namespace Recovery.UpdaterArgs
open Memory Program Program.Prog Edify Updater List

variable (sha1 : Bytes → Bytes)

/-- The functions, under the names they are registered with. -/
inductive Variadic where
  | delete | delete_recursive | symlink | apply_patch | apply_patch_check | sha1_check
  deriving DecidableEq, Repr

def Variadic.name : Variadic → Bytes
  | delete => ascii "delete"
  | delete_recursive => ascii "delete_recursive"
  | symlink => ascii "symlink"
  | apply_patch => ascii "apply_patch"
  | apply_patch_check => ascii "apply_patch_check"
  | sha1_check => ascii "sha1_check"
def Variadic.fn : Variadic → Function
  | delete => .DeleteFn
  | delete_recursive => .DeleteFn
  | symlink => .SymlinkFn
  | apply_patch => .ApplyPatchFn
  | apply_patch_check => .ApplyPatchCheckFn
  | sha1_check => .Sha1CheckFn

/-- How a function evaluates an argument: the patches and what `sha1_check` gets may be blobs. -/
def Variadic.evaluates (f : Variadic) (argv : Args) (k : Nat) : Run (Option Value) :=
  match f with
  | sha1_check => argument argv k
  | apply_patch => if k < 4 then Evaluate argv k else argument argv k
  | _ => Evaluate argv k

/-- The arguments from `k` to before `i` evaluate to `values`, one after the other. -/
inductive Values (get : Nat → Run (Option Value)) : Nat → Session → List Reply → List Value → Nat → Session →
    List Reply → Prop where
  | done (k : Nat) (s : Session) (as : List Reply) : Values get k s as [] k s as
  | more {k i : Nat} {s t u : Session} {as bs cs : List Reply} {v : Value} {values : List Value}
      (value : get k s as = ⟨some (some v), t, bs⟩) (rest : Values get (k + 1) t bs values i u cs) :
      Values get k s as (v :: values) i u cs

def entered (f : Variadic) (argv : Args) (s : Session) : Session :=
  { s with events := s.events ++ [.enter f.fn argv.length] }

/-- The arguments before `i` evaluate to `values`, and argument `i` to `NULL`. -/
structure YieldsNull (f : Variadic) (argv : Args) (i : Nat) (s : Session) (as : List Reply) (values : List Value)
    (t : Session) (bs : List Reply) : Prop where
  below : i < argv.length
  before : ∃ u cs, Values (f.evaluates argv) 0 (entered f argv s) as values i u cs ∧
    f.evaluates argv i u cs = ⟨some none, t, bs⟩

/-- The checks that a function makes before it evaluates argument `i` let it go on. -/
def GoesOn (f : Variadic) (argv : Args) (i : Nat) (s : Session) (as : List Reply) : Prop :=
  match f with
  | .apply_patch => (6 ≤ argv.length ∧ argv.length % 2 = 0) ∧
    (4 ≤ i → ∀ source target sum size u cs,
      Values (f.evaluates argv) 0 (entered f argv s) as [source, target, sum, size] 4 u cs →
        source.text ∉ u.bakfiles ∧ (strtol size.text).2 ≠ size.text)
  | .apply_patch_check => 1 ≤ i → ∀ file u cs,
    Values (f.evaluates argv) 0 (entered f argv s) as [file] 1 u cs → file.text ∉ u.bakfiles
  | _ => True

/-- The call returns `NULL`, and after the argument that is `NULL` it has only freed the
    arguments before it, each of them once. -/
structure Unwinds (o : Outcome Session Reply (Option Value)) (values : List Value) (t : Session)
    (bs : List Reply) : Prop where
  returns : o.value = some none
  rest : o.rest = bs
  frees : ∃ ids : List Nat, ids.Perm (values.map Value.id) ∧ o.state = { t with events := t.events ++ ids.map .free }

/-- Where an argument may be `NULL`. -/
def Safe (f : Variadic) (i : Nat) : Prop :=
  match f with
  | .delete | .delete_recursive | .apply_patch_check => i = 0
  | .apply_patch => i < 4
  | .symlink | .sha1_check => True

/-! ## Reading arguments -/

private theorem freeAll_run (values : List Value) (s : Session) (as : List Reply) :
    freeAll values s as = ⟨some (),{ s with events := s.events ++ (values.map Value.id).map .free },as⟩ := by
  induction values generalizing s with
  | nil => simp [freeAll,pure_run]
  | cons v rest ih =>
    rw [freeAll,bind_run,free,push,modify_run,next_some rfl,ih]
    simp

theorem bind_of_run {α β : Type} {p : Run α} {k : α → Run β} {s t : Session} {as bs : List Reply} {a : α}
    (run : p s as = ⟨some a,t,bs⟩) : (p >>= k) s as = k a t bs := by
  rw [bind_run,run,next_some rfl]

theorem bind_stops {α β : Type} {p : Run α} {k : α → Run β} (never : ∀ a t bs, (k a t bs).value = none) (s : Session)
    (as : List Reply) : ((p >>= k) s as).value = none := by
  cases value : (p s as).value with
  | none => rw [bind_run,next_none value]
  | some a => rw [bind_run,next_some value,never]

section Reading
variable {get : Nat → Run (Option Value)} {k i : Nat} {s u t : Session} {as cs bs : List Reply} {values : List Value}

theorem values_length (chain : Values get k s as values i u cs) : values.length = i - k ∧ k ≤ i := by
  induction chain with
  | done => simp
  | more _ _ ih => simp only [length_cons]; omega
theorem readLoop_values (chain : Values get k s as values i u cs) (more : Nat) (got : List Value) :
    readLoop get (values.length + more) k got s as = readLoop get more i (got ++ values) u cs := by
  induction chain generalizing got with
  | done => simp
  | more value rest ih =>
    rw [length_cons,Nat.add_right_comm,readLoop,bind_of_run value]
    refine (ih (got ++ [_])).trans ?_
    rw [append_assoc,singleton_append]
theorem readLoop_null (chain : Values get k s as values i u cs) (null : get i u cs = ⟨some none,t,bs⟩)
    {count : Nat} (enough : i - k < count) :
    readLoop get count k [] s as =
      ⟨some none,{ t with events := t.events ++ (values.map Value.id).map .free },bs⟩ := by
  obtain ⟨more,rfl⟩ : ∃ more, count = values.length + (more + 1) :=
    ⟨count - values.length - 1,by have := (values_length chain).1; omega⟩
  rw [readLoop_values chain,readLoop,bind_of_run null,nil_append]
  exact bind_of_run (freeAll_run ..)
theorem readLoop_all (chain : Values get k s as values i u cs) {count : Nat} (exact : i - k = count) :
    readLoop get count k [] s as = ⟨some (some values),u,cs⟩ := by
  have all := readLoop_values chain 0 []
  rw [Nat.add_zero,(values_length chain).1,exact] at all
  rw [all,readLoop,pure_run,nil_append]
theorem values_split (chain : Values get k s as values i u cs) (j : Nat) (low : k ≤ j) (high : j ≤ i) :
    ∃ first later t bs, values = first ++ later ∧ Values get k s as first j t bs ∧ Values get j t bs later i u cs := by
  induction chain with
  | done k s as =>
    obtain rfl : k = j := by omega
    exact ⟨[],[],s,as,rfl,.done ..,.done ..⟩
  | @more k i s t u as bs cs v values value rest ih =>
    rcases Nat.eq_or_lt_of_le low with rfl | later
    · exact ⟨[],v :: values,s,as,rfl,.done ..,.more value rest⟩
    · obtain ⟨first,last,t,bs,rfl,before,after⟩ := ih later high
      exact ⟨v :: first,last,t,bs,rfl,.more value before,after⟩
theorem values_congr (get' : Nat → Run (Option Value)) (chain : Values get k s as values i u cs)
    (same : ∀ j, k ≤ j → j < i → get j = get' j) : Values get' k s as values i u cs := by
  induction chain with
  | done => exact .done ..
  | more value rest ih =>
    have := (values_length rest).2
    refine .more (by rw [← same _ le_rfl (by omega)]; exact value) (ih fun j low high => same j (by omega) high)

end Reading

/-! ## The functions -/

section Calls
variable {argv : Args} {i : Nat} {s u t : Session} {as cs bs : List Reply} {values : List Value}

theorem unwinds_of_run (ids : List Nat) {o : Outcome Session Reply (Option Value)}
    (run : o = ⟨some none,{ t with events := t.events ++ ids.map .free },bs⟩) (perm : ids.Perm (values.map Value.id)) :
    Unwinds o values t bs := by
  subst run
  exact ⟨rfl,rfl,ids,perm,rfl⟩
theorem not_unwinds {o : Outcome Session Reply (Option Value)} (stops : o.value = none) : ¬ Unwinds o values t bs := by
  intro unwinds
  cases stops.symm.trans unwinds.returns

private theorem deleteRead_values {k : Nat} (chain : Values (Evaluate argv) k s as values i u cs) (more : Nat)
    (got : List Value) :
    deleteRead argv (values.length + more) k got s as = deleteRead argv more i (got ++ values) u cs := by
  induction chain generalizing got with
  | done => simp
  | more value rest ih =>
    rw [length_cons,Nat.add_right_comm,deleteRead,bind_of_run value]
    refine (ih (got ++ [_])).trans ?_
    rw [append_assoc,singleton_append]
theorem delete_unwinds_iff (name : Bytes) (below : i < argv.length)
    (chain : Values (Evaluate argv) 0 s as values i u cs) (null : Evaluate argv i u cs = ⟨some none,t,bs⟩) :
    Unwinds (DeleteFn name argv s as) values t bs ↔ i = 0 := by
  have length := (values_length chain).1
  obtain ⟨more,enough⟩ : ∃ more, argv.length = values.length + (more + 1) := ⟨argv.length - i - 1,by omega⟩
  have read : deleteRead argv argv.length 0 [] s as = deleteRead argv (more + 1) i values u cs := by
    rw [enough,deleteRead_values chain,nil_append]
  cases values with
  | nil =>
    have run : DeleteFn name argv s as = ⟨some none,t,bs⟩ := by
      rw [DeleteFn,bind_run,read,deleteRead,bind_of_run null]
      rfl
    rw [run]
    refine iff_of_true ?_ (by simpa using length.symm)
    exact ⟨rfl,rfl,[],.refl _,by simp⟩
  | cons first rest =>
    have run : (DeleteFn name argv s as).value = none := by
      rw [DeleteFn,bind_run,read,deleteRead,bind_of_run null]
      rfl
    simp only [length_cons] at length
    exact iff_of_false (not_unwinds run) (by omega)

private theorem symlink_unwinds (name : Bytes) (below : i < argv.length)
    (chain : Values (Evaluate argv) 0 s as values i u cs) (null : Evaluate argv i u cs = ⟨some none,t,bs⟩) :
    Unwinds (SymlinkFn name argv s as) values t bs := by
  rw [SymlinkFn,if_neg (by omega)]
  cases chain with
  | done =>
    refine unwinds_of_run [] ?_ (.refl _)
    rw [bind_of_run null]
    simp [pure_run]
  | @more _ _ _ _ _ _ _ _ target srcs value rest =>
    have read : ReadVarArgs argv 1 _ _ = _ := readLoop_null rest null (by have := (values_length rest).2; omega)
    refine unwinds_of_run (srcs.map Value.id ++ [target.id]) ?_ ?_
    · rw [bind_of_run value]
      refine (bind_of_run read).trans ?_
      refine (bind_of_run (modify_run _ _ _)).trans ?_
      simp [pure_run]
    · exact (perm_append_comm).trans (by simp)

private theorem sha1_check_unwinds (name : Bytes) (below : i < argv.length)
    (chain : Values (argument argv) 0 s as values i u cs) (null : argument argv i u cs = ⟨some none,t,bs⟩) :
    Unwinds (Sha1CheckFn sha1 name argv s as) values t bs := by
  have read : ReadValueVarArgs argv 0 s as =
      ⟨some none,{ t with events := t.events ++ (values.map Value.id).map .free },bs⟩ :=
    readLoop_null chain null (by omega)
  rw [Sha1CheckFn,if_neg (by omega)]
  exact unwinds_of_run _ (bind_of_run read) (.refl _)

theorem backedUp_run {path : Bytes} (fresh : path ∉ s.bakfiles) : backedUp path s as = ⟨some false,s,as⟩ := by
  rw [backedUp,bind_of_run (get_run s as),pure_run]
  simpa using fresh

private theorem apply_patch_check_first (name : Bytes) (below : 0 < argv.length)
    (null : Evaluate argv 0 s as = ⟨some none,t,bs⟩) : Unwinds (ApplyPatchCheckFn name argv s as) [] t bs := by
  have read : ReadArgs argv 1 s as = ⟨some none,{ t with events := t.events ++ [] },bs⟩ :=
    readLoop_null (.done 0 s as) null (by omega)
  rw [ApplyPatchCheckFn,if_neg (by omega)]
  exact unwinds_of_run [] (bind_of_run read) (.refl _)
private theorem apply_patch_check_later (name : Bytes) (below : i < argv.length) {file : Value} {t' : Session}
    {bs' : List Reply} (first : Values (Evaluate argv) 0 s as [file] 1 t' bs') (fresh : file.text ∉ t'.bakfiles)
    (chain : Values (Evaluate argv) 1 t' bs' values i u cs) (null : Evaluate argv i u cs = ⟨some none,t,bs⟩) :
    (ApplyPatchCheckFn name argv s as).value = none := by
  have read : ReadArgs argv 1 s as = ⟨some (some [file]),t',bs'⟩ := readLoop_all first rfl
  have more : ReadVarArgs argv 1 t' bs' = _ :=
    readLoop_null chain null (by have := (values_length chain).2; omega)
  rw [ApplyPatchCheckFn,if_neg (by omega),bind_of_run read]
  change (applyPatchCheck argv file t' bs').value = none
  rw [applyPatchCheck,bind_of_run (backedUp_run fresh)]
  change ((ReadVarArgs argv 1 >>= _) t' bs').value = none
  rw [bind_of_run more]
  exact bind_stops (fun _ => bind_stops fun _ _ _ => rfl) _ _

private theorem apply_patch_unwinds (name : Bytes) (enough : 6 ≤ argv.length ∧ argv.length % 2 = 0) (low : i < 4)
    (chain : Values (Evaluate argv) 0 s as values i u cs) (null : Evaluate argv i u cs = ⟨some none,t,bs⟩) :
    Unwinds (ApplyPatchFn name argv s as) values t bs := by
  have read : ReadArgs argv 4 s as =
      ⟨some none,{ t with events := t.events ++ (values.map Value.id).map .free },bs⟩ :=
    readLoop_null chain null (by omega)
  rw [ApplyPatchFn,if_neg (by omega)]
  exact unwinds_of_run _ (bind_of_run read) (.refl _)
private theorem apply_patch_later (name : Bytes) (enough : 6 ≤ argv.length ∧ argv.length % 2 = 0) (below : i < argv.length)
    {source target sum size : Value} {t' : Session} {bs' : List Reply}
    (first : Values (Evaluate argv) 0 s as [source,target,sum,size] 4 t' bs')
    (fresh : source.text ∉ t'.bakfiles) (number : (strtol size.text).2 ≠ size.text)
    (chain : Values (argument argv) 4 t' bs' values i u cs) (null : argument argv i u cs = ⟨some none,t,bs⟩) :
    (ApplyPatchFn name argv s as).value = none := by
  have read : ReadArgs argv 4 s as = ⟨some (some [source,target,sum,size]),t',bs'⟩ := readLoop_all first rfl
  have more : ReadValueVarArgs argv 4 t' bs' = _ :=
    readLoop_null chain null (by have := (values_length chain).2; omega)
  rw [ApplyPatchFn,if_neg (by omega),bind_of_run read]
  change (applyPatch name argv source target sum size t' bs').value = none
  rw [applyPatch,bind_of_run (backedUp_run fresh),if_neg (by simp),if_neg number,bind_of_run more]
  rfl

end Calls

/-- The whole property: when an argument is `NULL` the call unwinds, exactly where it may be. -/
theorem null_argument_unwinds_iff (f : Variadic) (argv : Args) (i : Nat) (s t : Session) (as bs : List Reply)
    (values : List Value) (null : YieldsNull f argv i s as values t bs) (goesOn : GoesOn f argv i s as) :
    Unwinds (callFunction sha1 f.fn f.name argv s as) values t bs ↔ Safe f i := by
  obtain ⟨below, u, cs, chain, null⟩ := null
  cases f with
  | delete => exact delete_unwinds_iff _ below chain null
  | delete_recursive => exact delete_unwinds_iff _ below chain null
  | symlink => exact iff_of_true (symlink_unwinds _ below chain null) trivial
  | sha1_check => exact iff_of_true (sha1_check_unwinds sha1 _ below chain null) trivial
  | apply_patch_check =>
    by_cases first : i = 0
    · subst first
      cases chain with
      | done => exact iff_of_true (apply_patch_check_first _ below null) rfl
      | more _ rest => exact absurd (values_length rest).2 (by omega)
    · obtain ⟨files, rest, t', bs', rfl, before, after⟩ := values_split chain 1 (by omega) (by omega)
      obtain ⟨file, rfl⟩ := length_eq_one_iff.mp (values_length before).1
      have fresh := goesOn (by omega) file t' bs' before
      exact iff_of_false (not_unwinds (apply_patch_check_later _ below before fresh after null)) first
  | apply_patch =>
    obtain ⟨enough, later⟩ := goesOn
    by_cases low : i < 4
    · have strings := values_congr (Evaluate argv) chain fun j _ high => if_pos (by omega)
      have null : Evaluate argv i u cs = ⟨some none, t, bs⟩ := by simpa only [Variadic.evaluates, if_pos low] using null
      exact iff_of_true (apply_patch_unwinds _ enough low strings null) low
    obtain ⟨four, rest, t', bs', rfl, before, after⟩ := values_split chain 4 (by omega) (by omega)
    obtain ⟨source, target, sum, size, rfl⟩ : ∃ source target sum size, four = [source, target, sum, size] := by
      have length := (values_length before).1
      match four, length with
      | [source, target, sum, size], _ => exact ⟨source, target, sum, size, rfl⟩
    obtain ⟨fresh, number⟩ := later (by omega) source target sum size t' bs' before
    have strings := values_congr (Evaluate argv) before fun j _ high => if_pos high
    have blobs := values_congr (argument argv) after fun j start _ => if_neg (by omega)
    have null : argument argv i u cs = ⟨some none, t, bs⟩ := by simpa only [Variadic.evaluates, if_neg low] using null
    exact iff_of_false (not_unwinds (apply_patch_later _ enough below strings fresh number blobs null)) low

/-- What the script text `("a", abort())` gives a function. -/
def thenAbort : Args := [Literal (ascii "a"), AbortFn []]
def noSession : Session := ⟨none, [], 0, []⟩
theorem abort_unwinds_symlink :
    Unwinds (callFunction (fun data => data) .SymlinkFn (ascii "symlink") thenAbort noSession [])
      [⟨.VAL_STRING, 1, some (ascii "a"), 0⟩]
      ⟨some (ascii "called abort()"), [.enter .SymlinkFn 2, .read 0 2, .read 1 2], 1, []⟩ [] := by
  apply (null_argument_unwinds_iff (fun data => data) .symlink thenAbort 1 noSession _ [] _ _ ?_ trivial).mpr trivial
  exact ⟨by decide, _, _, .more rfl (.done ..), rfl⟩
/-- The first path is freed twice, and the call does not return. -/
theorem delete_frees_twice :
    callFunction (fun data => data) .DeleteFn (ascii "delete") thenAbort noSession [] =
      ⟨none, ⟨some (ascii "called abort()"),
        [.enter .DeleteFn 2, .read 0 2, .read 1 2, .free 0, .free 0, .endless], 1, []⟩, []⟩ := by
  decide +kernel


end Recovery.UpdaterArgs
