import HexAsm.Command.FileTree

/-!
# Stores of files

What a program may rely on when it reads and writes files by name, and that a file tree keeps it.
-/

namespace HexAsm

/-! ## Stores with a state -/

namespace Files

variable {σ π : Type}

/-- What a name is read as. -/
def text? (files : Files (StateM σ)) (name : String) (s : σ) : Option String := ((files.read name).run s).1

/-- Writing the text to the name succeeds. -/
def accepts (files : Files (StateM σ)) (name text : String) (s : σ) : Bool := ((files.write name text).run s).1

/-- The state after the text was written to the name, or the attempt failed. -/
def after (files : Files (StateM σ)) (name text : String) (s : σ) : σ := ((files.write name text).run s).2

/-- A name leads to a place, and a place has a content. Reading gives the content of a place as text and changes
nothing; a write that fails changes nothing either. A write that succeeds replaces the content of its place and no
other. -/
structure Lawful (files : Files (StateM σ)) (place : σ → String → Option π) (content : σ → π → Option ByteArray) :
    Prop where
  read_state : ∀ name s, ((files.read name).run s).2 = s
  read_text : ∀ name s text, files.text? name s = some text →
    ∃ p, place s name = some p ∧ content s p = some text.toUTF8
  refused : ∀ name text s, files.accepts name text s = false → files.after name text s = s
  written : ∀ name text s, files.accepts name text s = true →
    ∃ p, place s name = some p ∧ content (files.after name text s) p = some text.toUTF8 ∧
      ∀ q, q ≠ p → content (files.after name text s) q = content s q

end Files

/-! ## File trees -/

namespace FileTree

theorem lookup_cons_eq_ite (p q : Path) (content : ByteArray) (files : List (Path × ByteArray)) :
    ((p, content) :: files).lookup q = if q = p then some content else files.lookup q := by
  by_cases h : q = p
  · rw [if_pos h, h, List.lookup_cons_self]
  · have hb : (q == p) = false := by simpa using h
    rw [if_neg h, List.lookup_cons, hb]

theorem lookup_map_replace (files : List (Path × ByteArray)) (p q : Path) (content : ByteArray) :
    (files.map fun f => if f.1 = p then (p, content) else f).lookup q =
      if q = p then (files.lookup p).map fun _ => content else files.lookup q := by
  induction files with
  | nil => simp
  | cons f files ih =>
      obtain ⟨k, old⟩ := f
      by_cases hk : k = p
      · subst hk
        rw [List.map_cons, if_pos rfl, lookup_cons_eq_ite, lookup_cons_eq_ite, lookup_cons_eq_ite, ih]
        by_cases hq : q = k <;> simp [hq]
      · have hk' : ¬ p = k := fun h => hk h.symm
        rw [List.map_cons, if_neg hk, lookup_cons_eq_ite, lookup_cons_eq_ite, lookup_cons_eq_ite, ih, if_neg hk']
        by_cases hq : q = k <;> simp [hq, hk]

theorem get?_insert (t : FileTree) (p q : Path) (content : ByteArray) :
    (t.insert p content).get? q = if q = p then some content else t.get? q := by
  cases hp : t.get? p with
  | none =>
      have hins : t.insert p content = ⟨t.files ++ [(p, content)]⟩ := by simp [insert, hp]
      unfold get? at hp
      rw [hins, get?, get?, List.lookup_append, lookup_cons_eq_ite]
      by_cases hq : q = p
      · subst hq
        simp [hp]
      · simp [hq]
  | some old =>
      have hins : t.insert p content = ⟨t.files.map fun f => if f.1 = p then (p, content) else f⟩ := by
        simp [insert, hp]
      unfold get? at hp
      rw [hins, get?, get?, lookup_map_replace, hp]
      rfl

theorem toUTF8_of_fromUTF8? {bytes : ByteArray} {text : String} (h : String.fromUTF8? bytes = some text) :
    text.toUTF8 = bytes := by
  unfold String.fromUTF8? at h
  split at h
  · cases h
    rfl
  · cases h

theorem read_eq_some {t : FileTree} {name text : String} (h : t.read name = some text) :
    ∃ p, t.locate name = some p ∧ t.get? p = some text.toUTF8 := by
  obtain ⟨bytes, hbytes, htext⟩ := Option.bind_eq_some_iff.mp h
  obtain ⟨p, hp, hget⟩ := Option.bind_eq_some_iff.mp hbytes
  exact ⟨p, hp, by rw [toUTF8_of_fromUTF8? htext, hget]⟩

theorem write?_eq_some {t t' : FileTree} {name text : String} (h : t.write? name text = some t') :
    ∃ p, t.locate name = some p ∧ t' = t.insert p text.toUTF8 := by
  obtain ⟨p, hp, hw⟩ := Option.bind_eq_some_iff.mp h
  split at hw
  · cases hw
  · cases hw
    exact ⟨p, hp, rfl⟩

theorem accepts_store (t : FileTree) (name text : String) :
    store.accepts name text t = (t.write? name text).isSome := by
  simp only [Files.accepts, store, StateT.run_bind, StateT.run_get, pure_bind]
  cases t.write? name text <;> rfl

theorem after_store (t : FileTree) (name text : String) :
    store.after name text t = (t.write? name text).getD t := by
  simp only [Files.after, store, StateT.run_bind, StateT.run_get, pure_bind]
  cases t.write? name text <;> rfl

/-- A file tree is a lawful store: its places are the paths that names lead to. -/
theorem lawful_store : store.Lawful locate get? where
  read_state _ _ := rfl
  read_text _ _ _ h := read_eq_some h
  refused name text t h := by
    rw [accepts_store, Option.isSome_eq_false_iff, Option.isNone_iff_eq_none] at h
    rw [after_store, h]
    rfl
  written name text t h := by
    rw [accepts_store] at h
    obtain ⟨t', ht'⟩ := Option.isSome_iff_exists.mp h
    obtain ⟨p, hp, rfl⟩ := write?_eq_some ht'
    rw [after_store, ht']
    exact ⟨p, hp, by simp [get?_insert], fun q hq => by simp [get?_insert, hq]⟩

end FileTree

end HexAsm
