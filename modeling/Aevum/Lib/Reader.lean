import Aevum.Lib.Word

/-!
# Reader — bounds-checked reading from a byte string

A cursor is a byte string with a position; a reader moves the cursor and yields a value, or it
fails and leaves the cursor where it stopped.  The cursor also records which bytes were accessed.
This file defines:

* `Reader α` : readers, as a monad, with the primitives `read`, `skip`, `check`, `times`, `position`
  and `consumed`;
* `Reader.Framed r` : `r` goes forward, reads inside the data, does not depend on what comes behind
  the bytes it passed, and fails when some of these are missing;
* `Reader.Decodes r bs a` : in front of the bytes `bs`, `r` passes them and yields `a`;
* `Reader.Matches R r r'` : from the same place, `r` and `r'` fail together or yield results that
  are related by `R`, and stop at the same place.

These properties are closed under the operations of readers.
-/

namespace Lib

structure Cursor where
  data : List UInt8
  pos : Nat
  reads : List (Nat × Nat)

namespace Cursor

def new (data : List UInt8) : Cursor :=
  { data := data
    pos := 0
    reads := [] }

/-- The cursor is inside the data, what was read is behind it, and it has moved by a byte for every
access at least. -/
structure Sound (c : Cursor) : Prop where
  pos_le : c.pos ≤ c.data.length
  reads_le : ∀ p ∈ c.reads, p.1 < p.2 ∧ p.2 ≤ c.pos
  count_le : c.reads.length ≤ c.pos

theorem sound_new (data : List UInt8) : (new data).Sound :=
  { pos_le := Nat.zero_le _
    reads_le := fun _ hp => (List.not_mem_nil hp).elim
    count_le := le_refl _ }

/-- The same cursor in other data. -/
def within (c : Cursor) (data : List UInt8) : Cursor := { c with data := data }

@[simp] theorem within_pos (c : Cursor) (data : List UInt8) : (c.within data).pos = c.pos := rfl

@[simp] theorem within_data (c : Cursor) (data : List UInt8) : (c.within data).data = data := rfl

end Cursor

def Reader (α : Type) : Type := Cursor → Option α × Cursor

namespace Reader

open Cursor

/-! ## Operations -/

def fail {α : Type} : Reader α := fun c => (none, c)

def bind {α β : Type} (r : Reader α) (f : α → Reader β) : Reader β := fun c =>
  match r c with
  | (some a, c') => f a c'
  | (none, c') => (none, c')

instance : Monad Reader where
  pure a := fun c => (some a, c)
  bind := bind

/-- The next `n` bytes. -/
def read (n : Nat) : Reader (ByteArr n) := fun c =>
  if h : c.pos + n ≤ c.data.length then
    (some ⟨(c.data.drop c.pos).take n, by rw [List.length_take, List.length_drop]; omega⟩,
      { c with pos := c.pos + n, reads := (c.pos, c.pos + n) :: c.reads })
  else
    (none, c)

/-- Passing `n` bytes without looking at them. -/
def skip (n : Nat) : Reader Unit := fun c =>
  if c.pos + n ≤ c.data.length then (some (), { c with pos := c.pos + n }) else (none, c)

def check (p : Prop) [Decidable p] : Reader Unit := if p then pure () else fail

def position : Reader Nat := fun c => (some c.pos, c)

/-- The bytes up to the cursor. -/
def consumed : Reader (List UInt8) := fun c => (some (c.data.take c.pos), c)

/-- `for _ in 0..n { r?; }`. -/
def times : Nat → Reader Unit → Reader Unit
  | 0, _ => pure ()
  | n + 1, r => do
      r
      times n r

variable {α β : Type} {r : Reader α} {f : α → Reader β} {c c' : Cursor} {a : α} {b : β} {n : Nat}

theorem bind_eq_some :
    (r >>= f) c = (some b, c') ↔ ∃ a c₁, r c = (some a, c₁) ∧ f a c₁ = (some b, c') := by
  change bind r f c = _ ↔ _
  unfold bind
  split
  · next a c₁ hr =>
      constructor
      · intro h
        exact ⟨a, c₁, hr, h⟩
      · rintro ⟨a', c₁', hr', h⟩
        rw [hr] at hr'
        cases hr'
        exact h
  · next hr =>
      constructor
      · intro h
        cases h
      · rintro ⟨a', c₁', hr', -⟩
        rw [hr] at hr'
        cases hr'

theorem bind_of_some {c₁ : Cursor} (h : r c = (some a, c₁)) : (r >>= f) c = f a c₁ := by
  change bind r f c = _
  rw [bind, h]

theorem bind_of_none (h : (r c).1 = none) : ((r >>= f) c).1 = none := by
  change (bind r f c).1 = none
  unfold bind
  split
  · next hr =>
      rw [hr] at h
      cases h
  · rfl

theorem pure_bind (a : α) (f : α → Reader β) : pure a >>= f = f a := rfl

theorem bind_pure (r : Reader α) : (r >>= fun a => pure a) = r := by
  funext c
  change bind r (fun a => pure a) c = r c
  unfold bind
  cases r c with
  | mk result c₁ =>
      cases result with
      | none => rfl
      | some a => rfl

theorem bind_assoc {γ : Type} (r : Reader α) (f : α → Reader β) (g : β → Reader γ) :
    r >>= f >>= g = r >>= fun a => f a >>= g := by
  funext c
  change bind (bind r f) g c = bind r (fun a => bind (f a) g) c
  unfold bind
  cases r c with
  | mk result c₁ =>
      cases result with
      | none => rfl
      | some a => rfl

theorem read_eq_some {a : ByteArr n} (h : read n c = (some a, c')) :
    c.pos + n ≤ c.data.length ∧ a.bytes = (c.data.drop c.pos).take n ∧
      c' = { c with pos := c.pos + n, reads := (c.pos, c.pos + n) :: c.reads } := by
  unfold read at h
  split at h
  · next hle =>
      cases h
      exact ⟨hle, rfl, rfl⟩
  · cases h

theorem skip_eq_some {u : Unit} (h : skip n c = (some u, c')) :
    c.pos + n ≤ c.data.length ∧ c' = { c with pos := c.pos + n } := by
  unfold skip at h
  split at h
  · next hle =>
      cases h
      exact ⟨hle, rfl⟩
  · cases h

/-! ## Framed readers -/

structure Framed (r : Reader α) : Prop where
  data_eq : ∀ c, (r c).2.data = c.data
  pos_le : ∀ c, c.pos ≤ (r c).2.pos
  sound : ∀ c, c.Sound → (r c).2.Sound
  /-- Only the bytes before the new position matter. -/
  extend : ∀ {c a c'}, c.Sound → r c = (some a, c') → ∀ data, c.data.take c'.pos <+: data →
    r (c.within data) = (some a, c'.within data)
  /-- They are all needed. -/
  short : ∀ {c a c'}, c.Sound → r c = (some a, c') → ∀ data, data <+: c.data →
    c.pos ≤ data.length → data.length < c'.pos → (r (c.within data)).1 = none

/-- Looking at the cursor. -/
theorem framed_get (g : Cursor → α)
    (hg : ∀ c data, c.Sound → c.data.take c.pos <+: data → g (c.within data) = g c) :
    Framed fun c => (some (g c), c) where
  data_eq _ := rfl
  pos_le _ := le_refl _
  sound _ h := h
  extend hc h data hprefix := by
    cases h
    rw [hg _ data hc hprefix]
  short _ h := by
    cases h
    intro data _ hle hlt
    omega

theorem framed_pure (a : α) : Framed (pure a : Reader α) :=
  framed_get (fun _ => a) fun _ _ _ _ => rfl

theorem framed_position : Framed position :=
  framed_get Cursor.pos fun _ _ _ _ => rfl

theorem framed_consumed : Framed consumed := by
  refine framed_get (fun c => c.data.take c.pos) fun c data hc hprefix => ?_
  have htake := List.prefix_iff_eq_take.1 hprefix
  rw [List.length_take, Nat.min_eq_left hc.pos_le] at htake
  exact htake.symm

theorem framed_fail : Framed (fail : Reader α) where
  data_eq _ := rfl
  pos_le _ := le_refl _
  sound _ h := h
  extend _ h := by cases h
  short _ h := by cases h

theorem Framed.bind (hr : Framed r) (hf : ∀ a, Framed (f a)) : Framed (r >>= f) := by
  -- where the composite ends is where its last part ends
  have hsplit : ∀ c, ((r >>= f) c).2 = (r c).2 ∨ ∃ a, ((r >>= f) c).2 = (f a (r c).2).2 := by
    intro c
    change (Reader.bind r f c).2 = _ ∨ ∃ a, (Reader.bind r f c).2 = _
    unfold Reader.bind
    split
    · next a c₁ hc => exact Or.inr ⟨a, by rw [hc]⟩
    · next c₁ hc => exact Or.inl (by rw [hc])
  refine
    { data_eq := fun c => ?_
      pos_le := fun c => ?_
      sound := fun c hc => ?_
      extend := ?_
      short := ?_ }
  · rcases hsplit c with h | ⟨a, h⟩
    · rw [h, hr.data_eq]
    · rw [h, (hf a).data_eq, hr.data_eq]
  · rcases hsplit c with h | ⟨a, h⟩
    · rw [h]
      exact hr.pos_le c
    · rw [h]
      exact (hr.pos_le c).trans ((hf a).pos_le _)
  · rcases hsplit c with h | ⟨a, h⟩
    · rw [h]
      exact hr.sound c hc
    · rw [h]
      exact (hf a).sound _ (hr.sound c hc)
  · intro c b c' hsound h data hprefix
    rcases bind_eq_some.1 h with ⟨a, c₁, hc, hc₁⟩
    have hdata : c₁.data = c.data := by simpa [hc] using hr.data_eq c
    have hpos : c₁.pos ≤ c'.pos := by simpa [hc₁] using (hf a).pos_le c₁
    have hsound₁ : c₁.Sound := by simpa [hc] using hr.sound c hsound
    have hfirst : c.data.take c₁.pos <+: data :=
      (List.take_prefix_take_left hpos).trans hprefix
    rw [bind_of_some (hr.extend hsound hc data hfirst)]
    exact (hf a).extend hsound₁ hc₁ data (hdata ▸ hprefix)
  · intro c b c' hsound h data hprefix hle hlt
    rcases bind_eq_some.1 h with ⟨a, c₁, hc, hc₁⟩
    have hdata : c₁.data = c.data := by simpa [hc] using hr.data_eq c
    by_cases hmid : data.length < c₁.pos
    · exact bind_of_none (hr.short hsound hc data hprefix hle hmid)
    · -- the first part still succeeds
      have hsound₁ : c₁.Sound := by simpa [hc] using hr.sound c hsound
      have hfirst : c.data.take c₁.pos <+: data :=
        List.prefix_of_prefix_length_le (List.take_prefix _ _) hprefix
          ((List.length_take_le _ _).trans (Nat.le_of_not_lt hmid))
      rw [bind_of_some (hr.extend hsound hc data hfirst)]
      exact (hf a).short hsound₁ hc₁ data (hdata ▸ hprefix) (Nat.le_of_not_lt hmid) hlt

/-- The next bytes are the same in all data that agree up to their end. -/
theorem next_eq_of_isPrefix {data data' : List UInt8} {pos : Nat} (hle : pos + n ≤ data.length)
    (h : data.take (pos + n) <+: data') :
    pos + n ≤ data'.length ∧ (data'.drop pos).take n = (data.drop pos).take n := by
  have hlen := h.length_le
  rw [List.length_take, Nat.min_eq_left hle] at hlen
  have htake := List.prefix_iff_eq_take.1 h
  rw [List.length_take, Nat.min_eq_left hle] at htake
  refine ⟨hlen, ?_⟩
  have hdrop := congrArg (List.drop pos) htake
  rw [List.drop_take, List.drop_take, Nat.add_sub_cancel_left] at hdrop
  exact hdrop.symm

theorem framed_skip (n : Nat) : Framed (skip n) where
  data_eq c := by
    unfold skip
    split <;> rfl
  pos_le c := by
    unfold skip
    split
    · exact Nat.le_add_right _ _
    · exact le_refl _
  sound c hc := by
    unfold skip
    split
    · next hle =>
        exact
          { pos_le := hle
            reads_le := fun p hp =>
              ⟨(hc.reads_le p hp).1, Nat.le_add_right_of_le (hc.reads_le p hp).2⟩
            count_le := Nat.le_add_right_of_le hc.count_le }
    · exact hc
  extend := by
    intro c u c' _ h data hprefix
    rcases skip_eq_some h with ⟨hle, rfl⟩
    rw [skip, within_pos, within_data, if_pos (next_eq_of_isPrefix hle hprefix).1]
    rfl
  short := by
    intro c u c' _ h data _ _ hlt
    rcases skip_eq_some h with ⟨hle, rfl⟩
    rw [skip, within_pos, within_data, if_neg (Nat.not_le.2 hlt)]

theorem framed_read (hn : 0 < n) : Framed (read n) where
  data_eq c := by
    unfold read
    split <;> rfl
  pos_le c := by
    unfold read
    split
    · exact Nat.le_add_right _ _
    · exact le_refl _
  sound c hc := by
    unfold read
    split
    · next hle =>
        refine
          { pos_le := hle
            reads_le := fun p hp => ?_
            count_le := ?_ }
        · rcases List.mem_cons.1 hp with rfl | hp
          · exact ⟨Nat.lt_add_of_pos_right hn, le_refl _⟩
          · exact ⟨(hc.reads_le p hp).1, Nat.le_add_right_of_le (hc.reads_le p hp).2⟩
        · -- one more access, and at least one more byte
          have hcount := hc.count_le
          rw [List.length_cons]
          show c.reads.length + 1 ≤ c.pos + n
          omega
    · exact hc
  extend := by
    intro c a c' _ h data hprefix
    rcases read_eq_some h with ⟨hle, hbytes, rfl⟩
    rcases next_eq_of_isPrefix hle hprefix with ⟨hlen, hnext⟩
    have ha : (⟨(data.drop c.pos).take n, by simp; omega⟩ : ByteArr n) = a :=
      ByteArr.ext (hnext.trans hbytes.symm)
    unfold read
    rw [dif_pos (show (c.within data).pos + n ≤ (c.within data).data.length from hlen), ← ha]
    rfl
  short := by
    intro c a c' _ h data _ _ hlt
    rcases read_eq_some h with ⟨hle, -, rfl⟩
    unfold read
    rw [dif_neg (show ¬ (c.within data).pos + n ≤ (c.within data).data.length from
      Nat.not_le.2 hlt)]

theorem framed_check (p : Prop) [Decidable p] : Framed (check p) := by
  unfold check
  split
  · exact framed_pure ()
  · exact framed_fail

theorem Framed.times {r : Reader Unit} (hr : Framed r) (n : Nat) : Framed (times n r) := by
  induction n with
  | zero => exact framed_pure ()
  | succ n ih => exact hr.bind fun _ => ih

/-- A framed reader from the start of `d`: it reads inside `d` and never more often than `d` has
bytes. -/
theorem Framed.sound_new (hr : Framed r) (d : List UInt8) :
    (r (Cursor.new d)).2.pos ≤ d.length ∧
      (∀ p ∈ (r (Cursor.new d)).2.reads, p.1 < p.2 ∧ p.2 ≤ d.length) ∧
        (r (Cursor.new d)).2.reads.length ≤ d.length := by
  have hsound := hr.sound (Cursor.new d) (Cursor.sound_new d)
  have hpos : (r (Cursor.new d)).2.pos ≤ d.length := by
    have hle := hsound.pos_le
    rwa [hr.data_eq] at hle
  refine ⟨hpos, fun p hp => ?_, hsound.count_le.trans hpos⟩
  exact ⟨(hsound.reads_le p hp).1, (hsound.reads_le p hp).2.trans hpos⟩

/-- What a framed reader yields is decided by the bytes it passes, whatever follows. -/
theorem Framed.append_new (hr : Framed r) {d : List UInt8} (h : r (Cursor.new d) = (some a, c'))
    (s : List UInt8) : (r (Cursor.new (d.take c'.pos ++ s))).1 = some a := by
  have hprefix : (Cursor.new d).data.take c'.pos <+: d.take c'.pos ++ s := List.prefix_append _ _
  exact congrArg Prod.fst (hr.extend (Cursor.sound_new d) h _ hprefix)

/-- On fewer bytes it fails. -/
theorem Framed.short_new (hr : Framed r) {d : List UInt8} (h : r (Cursor.new d) = (some a, c'))
    {p : List UInt8} (hp : p <+: d.take c'.pos) (hne : p ≠ d.take c'.pos) :
    (r (Cursor.new p)).1 = none := by
  have hlt : p.length < c'.pos := by
    have hlength := hp.length_le
    refine lt_of_lt_of_le (lt_of_le_of_ne hlength fun heq => hne (hp.eq_of_length heq)) ?_
    exact List.length_take_le _ _
  exact hr.short (Cursor.sound_new d) h p (hp.trans (List.take_prefix _ _)) (Nat.zero_le _) hlt

/-! ## Results -/

/-- `P` holds of every result and the cursor it comes with. -/
def Yields (r : Reader α) (P : α → Cursor → Prop) : Prop :=
  ∀ c a c', r c = (some a, c') → P a c'

theorem Yields.bind {P : β → Cursor → Prop} (hf : ∀ a, Yields (f a) P) : Yields (r >>= f) P := by
  intro c b c' h
  rcases bind_eq_some.1 h with ⟨a, c₁, -, hc₁⟩
  exact hf a c₁ b c' hc₁

/-- A successful run passes `n` bytes at least. -/
def Advances (n : Nat) (r : Reader α) : Prop :=
  ∀ c a c', r c = (some a, c') → c.pos + n ≤ c'.pos

theorem Framed.advances (hr : Framed r) : Advances 0 r := by
  intro c a c' h
  have hle := hr.pos_le c
  rwa [h] at hle

theorem advances_read (n : Nat) : Advances n (read n) := by
  intro c a c' h
  rcases read_eq_some h with ⟨-, -, rfl⟩
  exact le_refl _

theorem Advances.bind {m : Nat} (hr : Advances m r) (hf : ∀ a, Advances n (f a)) :
    Advances (m + n) (r >>= f) := by
  intro c b c' h
  rcases bind_eq_some.1 h with ⟨a, c₁, hc, hc₁⟩
  have hfirst := hr c a c₁ hc
  have hrest := hf a c₁ b c' hc₁
  omega

/-- In front of `bs`, whatever follows, `r` passes `bs` and yields `a`. -/
def Decodes (r : Reader α) (bs : List UInt8) (a : α) : Prop :=
  ∀ c rest, c.data.drop c.pos = bs ++ rest → ∃ c', r c = (some a, c') ∧ c'.data.drop c'.pos = rest

theorem decodes_pure (a : α) : Decodes (pure a : Reader α) [] a :=
  fun c _ h => ⟨c, rfl, h⟩

theorem Decodes.bind {bs bs' : List UInt8} (hr : Decodes r bs a) (hf : Decodes (f a) bs' b) :
    Decodes (r >>= f) (bs ++ bs') b := by
  intro c rest h
  rw [List.append_assoc] at h
  rcases hr c _ h with ⟨c₁, hc, hrest⟩
  rcases hf c₁ _ hrest with ⟨c', hc₁, hrest'⟩
  exact ⟨c', by rw [bind_of_some hc, hc₁], hrest'⟩

theorem decodes_read (hn : 0 < n) (a : ByteArr n) : Decodes (read n) a.bytes a := by
  intro c rest h
  have hlen : c.pos + n ≤ c.data.length := by
    have hlength := congrArg List.length h
    rw [List.length_drop, List.length_append, a.length_eq] at hlength
    omega
  have htake : (⟨(c.data.drop c.pos).take n, by simp; omega⟩ : ByteArr n) = a :=
    ByteArr.ext (by simp [h, a.length_eq])
  refine ⟨{ c with pos := c.pos + n, reads := (c.pos, c.pos + n) :: c.reads }, ?_, ?_⟩
  · unfold read
    rw [dif_pos hlen, ← htake]
  · show c.data.drop (c.pos + n) = rest
    rw [← List.drop_drop, h, List.drop_left' a.length_eq]

theorem decodes_read_map (hn : 0 < n) (g : ByteArr n → α) (a : ByteArr n) :
    Decodes (do let b ← read n; pure (g b)) a.bytes (g a) := by
  have h := (decodes_read hn a).bind (f := fun b => pure (g b)) (decodes_pure (g a))
  rwa [List.append_nil] at h

theorem Decodes.new {bs : List UInt8} (h : Decodes r bs a) (rest : List UInt8) :
    ∃ c', r (Cursor.new (bs ++ rest)) = (some a, c') := by
  rcases h (Cursor.new (bs ++ rest)) rest rfl with ⟨c', hc, -⟩
  exact ⟨c', hc⟩

/-! ## Two readers side by side -/

/-- The same data and the same position; what was accessed may differ. -/
structure SamePlace (c c' : Cursor) : Prop where
  data : c.data = c'.data
  pos : c.pos = c'.pos

theorem SamePlace.refl (c : Cursor) : SamePlace c c := ⟨rfl, rfl⟩

/-- From the same place, both fail, or both succeed with related results; where they stop is the
same place too. -/
def Matches (R : α → β → Prop) (r : Reader α) (r' : Reader β) : Prop :=
  ∀ c c', SamePlace c c' → Option.Rel R (r c).1 (r' c').1 ∧ SamePlace (r c).2 (r' c').2

section Matches

variable {R : α → β → Prop} {r' : Reader β} {c₁ c₂ : Cursor}

theorem Matches.some_left (h : Matches R r r') (hc : SamePlace c c') (hr : r c = (some a, c₁)) :
    ∃ b c₂, r' c' = (some b, c₂) ∧ R a b ∧ SamePlace c₁ c₂ := by
  rcases h c c' hc with ⟨hresult, hplace⟩
  rw [hr] at hresult hplace
  cases hr' : r' c' with
  | mk result c₂ =>
      rw [hr'] at hresult hplace
      cases hresult with
      | some hab => exact ⟨_, c₂, rfl, hab, hplace⟩

theorem Matches.some_right (h : Matches R r r') (hc : SamePlace c c')
    (hr : r' c' = (some b, c₂)) : ∃ a c₁, r c = (some a, c₁) ∧ R a b ∧ SamePlace c₁ c₂ := by
  rcases h c c' hc with ⟨hresult, hplace⟩
  rw [hr] at hresult hplace
  cases hr' : r c with
  | mk result c₁ =>
      rw [hr'] at hresult hplace
      cases hresult with
      | some hab => exact ⟨_, c₁, rfl, hab, hplace⟩

theorem matches_pure (h : R a b) : Matches R (pure a) (pure b) :=
  fun _ _ hc => ⟨.some h, hc⟩

theorem Matches.bind {γ δ : Type} {S : γ → δ → Prop} {f : α → Reader γ} {g : β → Reader δ}
    (hr : Matches R r r') (hf : ∀ a b, R a b → Matches S (f a) (g b)) :
    Matches S (r >>= f) (r' >>= g) := by
  intro c c' hc
  rcases hr c c' hc with ⟨hresult, hplace⟩
  change Option.Rel S (Reader.bind r f c).1 (Reader.bind r' g c').1 ∧
    SamePlace (Reader.bind r f c).2 (Reader.bind r' g c').2
  unfold Reader.bind
  cases hrc : r c with
  | mk result c₁ =>
      cases hrc' : r' c' with
      | mk result' c₂ =>
          rw [hrc, hrc'] at hresult hplace
          cases hresult with
          | some hab => exact hf _ _ hab c₁ c₂ hplace
          | none => exact ⟨.none, hplace⟩

theorem matches_skip (n : Nat) : Matches Eq (skip n) (skip n) := by
  rintro ⟨data, pos, reads⟩ ⟨data', pos', reads'⟩ ⟨hdata, hpos⟩
  cases hdata
  cases hpos
  unfold skip
  split
  · exact ⟨.some rfl, rfl, rfl⟩
  · exact ⟨.none, rfl, rfl⟩

theorem matches_read (n : Nat) : Matches Eq (read n) (read n) := by
  rintro ⟨data, pos, reads⟩ ⟨data', pos', reads'⟩ ⟨hdata, hpos⟩
  cases hdata
  cases hpos
  unfold read
  split
  · exact ⟨.some rfl, rfl, rfl⟩
  · exact ⟨.none, rfl, rfl⟩

/-- Passing the bytes instead of reading them. -/
theorem matches_skip_read (n : Nat) : Matches (fun _ _ => True) (skip n) (read n) := by
  rintro ⟨data, pos, reads⟩ ⟨data', pos', reads'⟩ ⟨hdata, hpos⟩
  cases hdata
  cases hpos
  unfold skip read
  split
  · exact ⟨.some trivial, rfl, rfl⟩
  · exact ⟨.none, rfl, rfl⟩

theorem matches_read_map (n : Nat) (g : ByteArr n → α) :
    Matches Eq (do let b ← read n; pure (g b)) (do let b ← read n; pure (g b)) :=
  (matches_read n).bind fun _ _ h => matches_pure (congrArg g h)

theorem matches_check (p : Prop) [Decidable p] : Matches Eq (check p) (check p) := by
  unfold check
  split
  · exact matches_pure rfl
  · exact fun c c' hc => ⟨.none, hc⟩

theorem Matches.times {r r' : Reader Unit} (hr : Matches Eq r r') (n : Nat) :
    Matches Eq (times n r) (times n r') := by
  induction n with
  | zero => exact matches_pure rfl
  | succ n ih => exact hr.bind fun _ _ _ => ih

end Matches

end Reader
end Lib
