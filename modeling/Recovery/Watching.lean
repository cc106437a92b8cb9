import Recovery.Program

/-!
More ways to speak of a program that asks an environment. A watched program keeps a record of its
calls in its state; forgetting the record gives the program itself. A program ends if it returns as
soon as enough of the answers let it advance.
-/
namespace Recovery.Watching
open Program Program.Prog List

variable {σ τ A α β : Type}

/-! ## Watched programs -/

/-- Forgetting a part of the state turns the first program into the second. -/
def Erases (forget : σ → τ) (p : Prog σ A α) (q : Prog τ A α) : Prop :=
  ∀ s as, (⟨(p s as).value, forget (p s as).state, (p s as).rest⟩ : Outcome τ A α) = q (forget s) as

section Erasing
variable {forget : σ → τ} {p : Prog σ A α} {q : Prog τ A α}

theorem erases_pure (a : α) : Erases forget (pure a : Prog σ A α) (pure a) := fun _ _ => rfl
theorem erases_bind {k : α → Prog σ A β} {l : α → Prog τ A β} (first : Erases forget p q)
    (second : ∀ a, Erases forget (k a) (l a)) : Erases forget (p >>= k) (q >>= l) := by
  intro s as
  rw [bind_run q,← first s as,bind_run]
  rcases p s as with ⟨_ | a,t,bs⟩
  · rfl
  · exact second a t bs
theorem erases_ask : Erases forget (ask : Prog σ A A) ask := by
  intro s as
  cases as <;> rfl
theorem erases_get {k : σ → Prog σ A α} {l : τ → Prog τ A α} (body : ∀ s, Erases forget (k s) (l (forget s))) :
    Erases forget (get >>= k) (get >>= l) := fun s as => body s s as
theorem erases_modify {f : σ → σ} {g : τ → τ} (same : ∀ s, forget (f s) = g (forget s)) :
    Erases forget (modify f : Prog σ A Unit) (modify g) := by
  intro s as
  simp only [modify_run,same]
theorem erases_note {f : σ → σ} (same : ∀ s, forget (f s) = forget s) (body : Erases forget p q) :
    Erases forget (modify f >>= fun _ => p) q := by
  intro s as
  rw [← same s]
  exact body (f s) as
theorem erases_ite {c : Prop} [Decidable c] {p' : Prog σ A α} {q' : Prog τ A α} (yes : Erases forget p q)
    (no : Erases forget p' q') : Erases forget (if c then p else p') (if c then q else q') := by
  split
  · exact yes
  · exact no
theorem erases_iterate {step : β → Prog σ A (β ⊕ α)} {step' : β → Prog τ A (β ⊕ α)}
    (round : ∀ b, Erases forget (step b) (step' b)) (b : β) : Erases forget (iterate step b) (iterate step' b) := by
  have bounded (fuel : Nat) : ∀ b, Erases forget (rounds step fuel b) (rounds step' fuel b) := by
    induction fuel with
    | zero => exact fun _ _ _ => rfl
    | succ fuel ih =>
      refine fun b => erases_bind (round b) fun r => ?_
      cases r with
      | inl b => exact ih b
      | inr a => exact erases_pure a
  exact fun s as => bounded _ b s as
theorem triple_erases {P C : τ → Prop} {Q : α → τ → Prop} (erases : Erases forget p q) (known : Triple P q Q C) :
    Triple (fun s => P (forget s)) p (fun a s => Q a (forget s)) fun s => C (forget s) := by
  intro s as holds
  have run := known (forget s) as holds
  rw [← erases s as] at run
  exact run

end Erasing

/-! ## Programs that end -/

variable (advances : A → Bool) (valid : A → Prop)

/-- With valid answers, `n` of which advance, the program returns; it leaves the answers behind those
    it used, of which at most `n` advance. -/
def Ends (n : Nat) (P : σ → Prop) (p : Prog σ A α) (Q : α → σ → Prop) : Prop :=
  ∀ s as, P s → (∀ a ∈ as, valid a) → n ≤ as.countP advances → ∃ a used, (p s as).value = some a ∧
    Q a (p s as).state ∧ as = used ++ (p s as).rest ∧ used.countP advances ≤ n

variable {advances valid} {P : σ → Prop} {n : Nat}

variable {Q : α → σ → Prop}

theorem ends_pure (a : α) (post : ∀ s, P s → Q a s) :
    Ends advances valid n P (pure a : Prog σ A α) Q :=
  fun s _ holds _ _ => ⟨a,[],rfl,post s holds,rfl,Nat.zero_le n⟩
theorem ends_modify {f : σ → σ} {Q : Unit → σ → Prop} (post : ∀ s, P s → Q () (f s)) :
    Ends advances valid n P (modify f : Prog σ A Unit) Q :=
  fun s _ holds _ _ => ⟨(),[],rfl,post s holds,rfl,Nat.zero_le n⟩
theorem ends_ask {Q : A → σ → Prop} (post : ∀ a s, valid a → P s → Q a s) :
    Ends advances valid 1 P (ask : Prog σ A A) Q := by
  intro s as holds sound enough
  cases as with
  | nil => simp at enough
  | cons a rest => exact ⟨a,[a],rfl,post a s (sound a mem_cons_self) holds,rfl,countP_le_length⟩
theorem ends_bind {p : Prog σ A α} {k : α → Prog σ A β} {R : β → σ → Prop} {m : Nat}
    (first : Ends advances valid n P p Q) (second : ∀ a, Ends advances valid m (Q a) (k a) R) :
    Ends advances valid (n + m) P (p >>= k) R := by
  intro s as holds sound enough
  obtain ⟨a,used,value,mid,split,count⟩ := first s as holds sound (by omega)
  have total : as.countP advances = used.countP advances + (p s as).rest.countP advances := by
    rw [← countP_append,← split]
  have later : ∀ a ∈ (p s as).rest, valid a := fun a member => sound a (by
    rw [split]
    exact mem_append_right _ member)
  obtain ⟨b,used',value',post,split',count'⟩ := second a _ (p s as).rest mid later (by omega)
  rw [bind_run,next_some value]
  refine ⟨b,used ++ used',value',post,?_,?_⟩
  · rw [append_assoc,← split',← split]
  · rw [countP_append]
    omega
theorem ends_get {k : σ → Prog σ A α}
    (body : ∀ s, P s → Ends advances valid n (fun t => t = s) (k s) Q) : Ends advances valid n P (get >>= k) Q :=
  fun s as holds sound enough => body s holds s as rfl sound enough
theorem ends_ite {c : Prop} [Decidable c] {p q : Prog σ A α} (yes : c → Ends advances valid n P p Q)
    (no : ¬ c → Ends advances valid n P q Q) : Ends advances valid n P (if c then p else q) Q := by
  by_cases h : c
  · simpa [h] using yes h
  · simpa [h] using no h
theorem ends_more {m : Nat} {p : Prog σ A α} (body : Ends advances valid n P p Q) (more : n ≤ m) :
    Ends advances valid m P p Q := by
  intro s as holds sound enough
  obtain ⟨a,used,value,post,split,count⟩ := body s as holds sound (by omega)
  exact ⟨a,used,value,post,split,by omega⟩

variable (advances valid) in
/-- A round of a loop: it returns; when the loop goes on, what the answers advanced was taken off the
    measure, and an answer was used or the measure went down. -/
def Round (measure : β → Nat) (I : β → σ → Prop) (Q : α → σ → Prop) (step : β → Prog σ A (β ⊕ α)) : Prop :=
  ∀ b s as, I b s → (∀ a ∈ as, valid a) → measure b ≤ as.countP advances → ∃ r used, (step b s as).value = some r ∧
    as = used ++ (step b s as).rest ∧ r.elim
      (fun c => I c (step b s as).state ∧ used.countP advances + measure c ≤ measure b ∧
        (used ≠ [] ∨ measure c < measure b))
      (fun a => Q a (step b s as).state ∧ used.countP advances ≤ measure b)

variable {I : β → σ → Prop}

theorem ends_iterate {step : β → Prog σ A (β ⊕ α)} (measure : β → Nat)
    (round : Round advances valid measure I Q step) (b : β) :
    Ends advances valid (measure b) (I b) (iterate step b) Q := by
  -- a round uses an answer that does not advance, or brings the measure down
  have bounded (fuel : Nat) : ∀ b s as, as.length - as.countP advances + measure b < fuel → I b s →
      (∀ a ∈ as, valid a) → measure b ≤ as.countP advances → ∃ a used, (rounds step fuel b s as).value = some a ∧
        Q a (rounds step fuel b s as).state ∧ as = used ++ (rounds step fuel b s as).rest ∧
        used.countP advances ≤ measure b := by
    induction fuel with
    | zero => exact fun _ _ _ short => absurd short (by omega)
    | succ fuel ih =>
      intro b s as short holds sound enough
      obtain ⟨r,used,value,split,post⟩ := round b s as holds sound enough
      rw [rounds,bind_run,next_some value]
      cases r with
      | inr a => exact ⟨a,used,rfl,post.1,split,post.2⟩
      | inl c =>
        obtain ⟨kept,down,less⟩ := post
        have total : as.countP advances = used.countP advances + (step b s as).rest.countP advances := by
          rw [← countP_append,← split]
        have length : as.length = used.length + (step b s as).rest.length := by
          rw [← length_append,← split]
        have some : 0 < used.length ∨ measure c < measure b := less.imp_left length_pos_iff.mpr
        have few : used.countP advances ≤ used.length := countP_le_length
        have fewer : (step b s as).rest.countP advances ≤ (step b s as).rest.length := countP_le_length
        have later : ∀ a ∈ (step b s as).rest, valid a := fun a member => sound a (by
          rw [split]
          exact mem_append_right _ member)
        obtain ⟨a,used',value',post,split',count'⟩ := ih c _ (step b s as).rest (by omega) kept later (by omega)
        refine ⟨a,used ++ used',value',post,?_,?_⟩
        · rw [append_assoc,← split',← split]
        · rw [countP_append]
          omega
  intro s as holds sound enough
  have all : as.countP advances ≤ as.length := countP_le_length
  exact bounded (as.length + 1) b s as (by omega) holds sound enough

theorem round_ask {measure : β → Nat} {goes : β → Prop} [DecidablePred goes]
    {body : β → A → Prog σ A (β ⊕ α)} {last : β → α} (more : ∀ b, goes b → 0 < measure b)
    (round : ∀ b a s as, goes b → I b s → valid a → ∃ r t, body b a s as = ⟨some r,t,as⟩ ∧ r.elim
      (fun c => I c t ∧ measure c ≤ measure b ∧ (advances a = true → measure c < measure b)) (Q · t))
    (done : ∀ b s, ¬ goes b → I b s → Q (last b) s) :
    Round advances valid measure I Q fun b => if goes b then ask >>= body b else pure (.inr (last b)) := by
  intro b s as holds sound enough
  by_cases go : goes b
  · simp only [go,if_true]
    have some := more b go
    cases as with
    | nil =>
      rw [countP_nil] at enough
      omega
    | cons a rest =>
      obtain ⟨r,t,run,post⟩ := round b a s rest go holds (sound a mem_cons_self)
      have value : (ask >>= body b) s (a :: rest) = ⟨Option.some r,t,rest⟩ := run
      rw [value]
      refine ⟨r,[a],rfl,rfl,?_⟩
      have one : [a].countP advances ≤ 1 := countP_le_length
      cases r with
      | inl c =>
        obtain ⟨kept,down,less⟩ := post
        refine ⟨kept,?_,Or.inl (cons_ne_nil _ _)⟩
        by_cases good : advances a = true
        · have := less good
          omega
        · simp only [countP_singleton,good]
          simpa using down
      | inr d => exact ⟨post,by omega⟩
  · simp only [go,if_false]
    exact ⟨_,[],rfl,rfl,done b s go holds,Nat.zero_le _⟩

theorem enough_advances {f : Nat → A} (fair : ∀ k, ∃ j ≥ k, advances (f j) = true) (n : Nat) :
    ∃ k, n ≤ ((List.range k).map f).countP advances := by
  induction n with
  | zero => exact ⟨0,Nat.zero_le _⟩
  | succ n ih =>
    obtain ⟨k,enough⟩ := ih
    obtain ⟨j,later,good⟩ := fair k
    have longer : ((range k).map f).countP advances ≤ ((range j).map f).countP advances :=
      ((range_sublist.mpr later).map f).countP_le
    refine ⟨j + 1,?_⟩
    rw [range_succ,map_append,countP_append]
    simp only [map_cons,map_nil,countP_singleton,good,if_true]
    omega

/-! ## Guided loops -/

/-- Each round of a loop, up to some number of them, is begun with answers that are right for it. -/
def Guided (step : β → Prog σ A (β ⊕ α)) (right : β → List A → Prop) : Nat → β → σ → List A → Prop
  | 0, _, _, _ => True
  | n + 1, b, s, as => right b as ∧ ∀ c, (step b s as).value = some (.inl c) →
      Guided step right n c (step b s as).state (step b s as).rest

/-- The rule of loops, for rounds that are begun with the right answers. -/
theorem guided_rounds {step : β → Prog σ A (β ⊕ α)} {right : β → List A → Prop}
    {C : σ → Prop} (round : ∀ b s as, I b s → right b as → ((step b s as).value = none → C (step b s as).state) ∧
      ∀ r, (step b s as).value = some r → r.elim (I · (step b s as).state) (Q · (step b s as).state))
    (cut : ∀ b s, I b s → C s) {n : Nat} {b : β} {s : σ} {as : List A} (holds : I b s)
    (guided : Guided step right n b s as) :
    (∀ a, (rounds step n b s as).value = some a → Q a (rounds step n b s as).state) ∧
      ((rounds step n b s as).value = none → C (rounds step n b s as).state) := by
  induction n generalizing b s as with
  | zero => exact ⟨fun a value => (by cases value),fun _ => cut b s holds⟩
  | succ n ih =>
    obtain ⟨right,later⟩ := guided
    obtain ⟨stopped,returned⟩ := round b s as holds right
    rw [rounds,bind_run]
    cases value : (step b s as).value with
    | none =>
      rw [next_none value]
      exact ⟨fun a absent => (by cases absent),fun _ => stopped value⟩
    | some r =>
      rw [next_some value]
      have post := returned r value
      cases r with
      | inl c => exact ih post (later c value)
      | inr a =>
        refine ⟨fun b same => ?_,fun absent => by cases absent⟩
        obtain rfl := Option.some.inj same
        exact post

end Recovery.Watching
