import HexAsm.Json.Value
import HexAsm.Proofs.Lemmas.JsonText

/-!
# Reading JSON values

A value can be read back from its layout: strings with all their characters, the items of an array in order, and every
member of an object, whether or not its name comes again.
-/

namespace HexAsm.Json

/-! ## Values -/

/-- Induction over the items of an array and the members of an object. -/
@[elab_as_elim, induction_eliminator]
theorem Value.induct {motive : Value → Prop} (null : motive .null) (number : ∀ n, motive (.number n))
    (string : ∀ s, motive (.string s)) (array : ∀ vs, (∀ v ∈ vs, motive v) → motive (.array vs))
    (object : ∀ ms, (∀ m ∈ ms, motive m.2) → motive (.object ms)) : ∀ v, motive v
  | .null => null
  | .number n => number n
  | .string s => string s
  | .array vs => array vs fun v _hv => Value.induct null number string array object v
  | .object ms => object ms fun m _hm => Value.induct null number string array object m.2
termination_by v => sizeOf v
decreasing_by
  · have := List.sizeOf_lt_of_mem _hv
    simp only [Value.array.sizeOf_spec]
    omega
  · have := List.sizeOf_lt_of_mem _hm
    obtain ⟨name, v⟩ := m
    simp only [Value.object.sizeOf_spec, Prod.mk.sizeOf_spec] at this ⊢
    omega

/-- No object has two members of one name. -/
inductive Value.Distinct : Value → Prop
  | null : Distinct .null
  | number (n) : Distinct (.number n)
  | string (s) : Distinct (.string s)
  | array {vs} : (∀ v ∈ vs, Distinct v) → Distinct (.array vs)
  | object {ms} : (ms.map Prod.fst).Nodup → (∀ m ∈ ms, Distinct m.2) → Distinct (.object ms)

/-! ## Reading -/

/-- Items up to a closing character, at most `k` of them; those after the first follow a comma. -/
def readItems {α : Type} (item : List Char → Option (α × List Char)) (close : Char) :
    (k : Nat) → (first : Bool) → List Char → Option (List α × List Char)
  | 0, _, _ => none
  | k + 1, first, cs =>
    match skipBlanks cs with
    | [] => none
    | c :: rest =>
      if c = close then some ([], rest)
      else do
        let cs ← if first then some (c :: rest) else if c = ',' then some rest else none
        let (a, rest) ← item cs
        let (as, rest) ← readItems item close k false rest
        some (a :: as, rest)

/-- The member of an object at the front of a text. -/
def readMember {α : Type} (value : List Char → Option (α × List Char)) (cs : List Char) :
    Option ((String × α) × List Char) := do
  let rest ← (expect ['"'] (skipBlanks cs)).toOption
  let (name, rest) ← (stringTail rest).toOption
  let rest ← (expect [':'] (skipBlanks rest)).toOption
  let (v, rest) ← value rest
  some ((String.ofList name, v), rest)

/-- The value at the front of a text, within a depth. -/
def readValue : (depth : Nat) → List Char → Option (Value × List Char)
  | 0, _ => none
  | depth + 1, cs =>
    match skipBlanks cs with
    | 'n' :: rest => (expect ['u', 'l', 'l'] rest).toOption.map (.null, ·)
    | '"' :: rest => (stringTail rest).toOption.map fun (s, rest) => (.string (String.ofList s), rest)
    | '[' :: rest =>
      (readItems (readValue depth) ']' rest.length true rest).map fun (vs, rest) => (.array vs, rest)
    | '\x7b' :: rest =>
      (readItems (readMember (readValue depth)) '\x7d' rest.length true rest).map fun (ms, rest) => (.object ms, rest)
    | cs => (wholeDigits cs).toOption.map fun (ds, rest) => (.number (decimal ds), rest)

/-- The value that a text stands for, if nothing but blanks follow it. -/
def Value.ofText? (text : String) : Option Value :=
  match readValue text.length text.toList with
  | some (v, rest) => if skipBlanks rest = [] then some v else none
  | none => none

/-! ## Strings -/

theorem written_control {c : Char} (hc : c.toNat < 0x20) :
    Written c ['\\', 'u', '0', '0', (c.toNat / 16).digitChar, (c.toNat % 16).digitChar] := by
  have all : ∀ n : Fin 0x20,
      Hex.number? ['0', '0', (n.val / 16).digitChar, (n.val % 16).digitChar] = some n.val := by decide
  have hquad : Quad c.toNat ['0', '0', (c.toNat / 16).digitChar, (c.toNat % 16).digitChar] :=
    ⟨rfl, Hex.number?_eq_some.mp (all ⟨c.toNat, hc⟩)⟩
  have hwritten := Written.digits hquad (by omega)
  rwa [Char.ofNat_toNat] at hwritten

theorem written_stringChar (c : Char) : Written c (stringChar c) := by
  unfold stringChar
  split
  · exact .letter (by decide)
  · exact .letter (by decide)
  · exact .letter (by decide)
  · exact .letter (by decide)
  · exact .letter (by decide)
  · exact .letter (by decide)
  · exact .letter (by decide)
  · rename_i hquote hbackslash _ _ _ _ _
    split
    · rename_i hc
      exact written_control hc
    · rename_i hc
      exact .plain hquote hbackslash (by omega)

theorem quoted_stringChars (s : List Char) : Quoted s (s.flatMap stringChar) := by
  induction s with
  | nil => exact .nil
  | cons c s ih => exact .cons (written_stringChar c) ih

/-! ## Items laid out -/

/-- The items of an array or an object on a level, between its brackets. -/
def laidOut {α : Type} (item : α → List Char) (level : Nat) : List α → List Char
  | [] => []
  | a :: as =>
    newLine (level + 1) ++ item a ++ as.flatMap (fun a => ',' :: newLine (level + 1) ++ item a) ++ newLine level

theorem layoutItems_eq (level : Nat) (vs : List Value) :
    layoutItems level vs = vs.flatMap fun v => ',' :: newLine level ++ layoutValue level v := by
  induction vs with
  | nil => rw [layoutItems, List.flatMap_nil]
  | cons v vs ih => rw [layoutItems, List.flatMap_cons, ih]

theorem layoutMembers_eq (level : Nat) (ms : List (String × Value)) :
    layoutMembers level ms = ms.flatMap fun m => ',' :: newLine level ++ layoutMember level m := by
  induction ms with
  | nil => rw [layoutMembers, List.flatMap_nil]
  | cons m ms ih => rw [layoutMembers, List.flatMap_cons, ih]

theorem layoutValue_array (level : Nat) (vs : List Value) :
    layoutValue level (.array vs) = '[' :: laidOut (layoutValue (level + 1)) level vs ++ [']'] := by
  cases vs with
  | nil => rw [layoutValue]; rfl
  | cons v vs => simp [layoutValue, laidOut, layoutItems_eq]

theorem layoutValue_object (level : Nat) (ms : List (String × Value)) :
    layoutValue level (.object ms) = '\x7b' :: laidOut (layoutMember (level + 1)) level ms ++ ['\x7d'] := by
  cases ms with
  | nil => rw [layoutValue]; rfl
  | cons m ms => simp [layoutValue, laidOut, layoutMembers_eq]

theorem blanks_newLine (level : Nat) : Blanks (newLine level) := by
  intro c hc
  rcases List.mem_cons.mp hc with rfl | hc
  · simp
  · rw [List.eq_of_mem_replicate hc]
    simp

theorem items_laidOut {α : Type} (item : α → List Char) (level : Nat) (as : List α) :
    Items (fun a cs => cs = item a) true as (laidOut item level as) := by
  have htail : ∀ as : List α, Items (fun a cs => cs = item a) false as
      (as.flatMap (fun a => ',' :: newLine (level + 1) ++ item a) ++ newLine level) := by
    intro as
    induction as with
    | nil => exact .nil (blanks_newLine level)
    | cons a as ih =>
        rw [List.flatMap_cons, List.append_assoc]
        exact .cons (.next blanks_nil (blanks_newLine _)) rfl ih
  cases as with
  | nil => exact .nil blanks_nil
  | cons a as =>
      rw [laidOut, List.append_assoc]
      exact .cons (.first (blanks_newLine _)) rfl (htail as)

/-! ## Reading what is laid out -/

/-- The reader finds the item where the text stands, after blanks and before the end of a numeral. -/
def Reads {α : Type} (item : List Char → Option (α × List Char)) (a : α) (cs : List Char) : Prop :=
  ∀ g rest, Blanks g → NumeralEnds rest → item (g ++ cs ++ rest) = some (a, rest)

/-- The text starts with a character that is no blank and closes nothing. -/
def Opens (cs : List Char) : Prop :=
  ∃ c cs', cs = c :: cs' ∧ isBlank c = false ∧ c ≠ ']' ∧ c ≠ '\x7d'

theorem Items.length_le {α : Type} {Item : α → List Char → Prop} {first : Bool} {as : List α} {body : List Char}
    (h : Items Item first as body) (hopens : ∀ a cs, Item a cs → Opens cs) : as.length ≤ body.length := by
  induction h with
  | nil _ => exact Nat.zero_le _
  | cons _ hitem _ ih =>
      obtain ⟨c, cs', rfl, -⟩ := hopens _ _ hitem
      simp only [List.length_cons, List.length_append]
      omega

theorem Items.length_le_of_mem {α : Type} {Item : α → List Char → Prop} {first : Bool} {as : List α}
    {body : List Char} (h : Items Item first as body) {a : α} (ha : a ∈ as) :
    ∃ cs, Item a cs ∧ cs.length ≤ body.length := by
  induction h with
  | nil _ => cases ha
  | @cons _ _ _ cs _ ds _ hitem _ ih =>
      rcases List.mem_cons.mp ha with rfl | ha
      · exact ⟨cs, hitem, by simp only [List.length_append]; omega⟩
      · obtain ⟨es, hes, hle⟩ := ih ha
        exact ⟨es, hes, by simp only [List.length_append]; omega⟩

/-- An item that is read, then the ones after it. -/
theorem readItems_item {α : Type} {item : List Char → Option (α × List Char)} {close : Char} {first : Bool}
    {lead cs rest : List Char} {a : α} (hlead : Lead first lead) (hclose : close = ']' ∨ close = '\x7d')
    (hopens : Opens cs) (hread : Reads item a cs) (hrest : NumeralEnds rest) (k : Nat) :
    readItems item close (k + 1) first (lead ++ cs ++ rest) =
      (readItems item close k false rest).map fun r => (a :: r.1, r.2) := by
  obtain ⟨c, cs', rfl, hc, hsquare, hcurly⟩ := hopens
  have hne : c ≠ close := by rcases hclose with rfl | rfl <;> assumption
  have hcomma : ',' ≠ close := by rcases hclose with rfl | rfl <;> decide
  rw [readItems]
  cases hlead with
  | first hg =>
      have hitem : item (c :: (cs' ++ rest)) = some (a, rest) := hread [] rest blanks_nil hrest
      simp only [List.append_assoc, List.cons_append, skipBlanks_blanks hg, skipBlanks_cons hc, hne, if_false, if_true,
        Option.bind_eq_bind, Option.bind_some, hitem, Option.map_eq_bind]
      rfl
  | @next g g' hg hg' =>
      have hitem : item (g' ++ c :: (cs' ++ rest)) = some (a, rest) := by
        have := hread g' rest hg' hrest
        rwa [List.append_assoc, List.cons_append] at this
      simp only [List.append_assoc, List.cons_append, skipBlanks_blanks hg, skipBlanks_cons (c := ',') rfl, hcomma,
        if_false, if_true, Option.bind_eq_bind, Option.bind_some, hitem, Option.map_eq_bind, Bool.false_eq_true]
      rfl

/-- Items are read up to the closing bracket if each of them is. -/
theorem Items.readItems {α : Type} {item : List Char → Option (α × List Char)} {Item : α → List Char → Prop}
    {close : Char} {first : Bool} {as : List α} {body : List Char} {k : Nat} (h : Items Item first as body)
    (hclose : close = ']' ∨ close = '\x7d') (hreads : ∀ a ∈ as, ∀ cs, Item a cs → Reads item a cs)
    (hopens : ∀ a cs, Item a cs → Opens cs) (hk : as.length < k) (rest : List Char) :
    readItems item close k first (body ++ close :: rest) = some (as, rest) := by
  have hblank : isBlank close = false := by rcases hclose with rfl | rfl <;> rfl
  have hends : NumeralEnds (close :: rest) := by
    rcases hclose with rfl | rfl <;> exact numeralEnds_cons (by decide) rest
  induction h generalizing k with
  | nil hg =>
      obtain ⟨k, rfl⟩ := Nat.exists_eq_succ_of_ne_zero (Nat.ne_zero_of_lt hk)
      simp [Json.readItems, skipBlanks_blanks hg, skipBlanks_cons hblank]
  | @cons first lead a cs as body hlead hitem hitems ih =>
      obtain ⟨k, rfl⟩ := Nat.exists_eq_succ_of_ne_zero (Nat.ne_zero_of_lt hk)
      have htail := ih (fun b hb => hreads b (by simp [hb])) (Nat.lt_of_succ_lt_succ hk)
      rw [List.append_assoc, readItems_item hlead hclose (hopens a cs hitem) (hreads a (by simp) cs hitem)
        (hitems.numeralEnds hends), htail]
      rfl

theorem Items.readItems_length {α : Type} {item : List Char → Option (α × List Char)} {Item : α → List Char → Prop}
    {close : Char} {as : List α} {body : List Char} (h : Items Item true as body) (hclose : close = ']' ∨ close = '\x7d')
    (hreads : ∀ a ∈ as, ∀ cs, Item a cs → Reads item a cs) (hopens : ∀ a cs, Item a cs → Opens cs) (rest : List Char) :
    Json.readItems item close (body ++ close :: rest).length true (body ++ close :: rest) = some (as, rest) := by
  refine h.readItems hclose hreads hopens ?_ rest
  have := h.length_le hopens
  simp only [List.length_append, List.length_cons]
  omega

theorem Reads.member {α : Type} {value : List Char → Option (α × List Char)} {a : α} {cs : List Char}
    (h : Reads value a cs) (name : String) :
    Reads (readMember value) (name, a) (stringChars name ++ [':', ' '] ++ cs) := by
  intro g rest hg hrest
  have hstring := (quoted_stringChars name.toList).stringTail (':' :: ' ' :: (cs ++ rest))
  have hvalue : value (' ' :: (cs ++ rest)) = some (a, rest) := by
    have := h [' '] rest (by simp [Blanks]) hrest
    rwa [List.append_assoc] at this
  simp [readMember, stringChars, skipBlanks_blanks hg, skipBlanks_cons, isBlank, expect, Except.toOption, hstring, hvalue]

theorem opens_layoutValue (level : Nat) (v : Value) : Opens (layoutValue level v) := by
  cases v with
  | null => exact ⟨'n', _, by rw [layoutValue], by decide⟩
  | number n =>
      have hwhole := whole_toDigits n
      obtain ⟨d, ds, hds⟩ := List.exists_cons_of_ne_nil hwhole.ne_nil
      have hd := hwhole.isDigit d (by simp [hds])
      refine ⟨d, ds, by rw [layoutValue, hds], isBlank_of_isDigit hd, ?_, ?_⟩ <;> rintro rfl <;> exact absurd hd (by decide)
  | string s => exact ⟨'"', _, by rw [layoutValue]; rfl, by decide⟩
  | array vs => exact ⟨'[', _, by rw [layoutValue_array]; rfl, by decide⟩
  | object ms => exact ⟨'\x7b', _, by rw [layoutValue_object]; rfl, by decide⟩

theorem opens_layoutMember (level : Nat) (m : String × Value) : Opens (layoutMember level m) :=
  ⟨'"', _, by rw [layoutMember]; rfl, by decide⟩

theorem readValue_blanks {g : List Char} (hg : Blanks g) (depth : Nat) (cs : List Char) :
    readValue depth (g ++ cs) = readValue depth cs := by
  cases depth with
  | zero => rfl
  | succ depth => simp only [readValue, skipBlanks_blanks hg]

theorem reads_null (depth : Nat) : Reads (readValue (depth + 1)) .null ['n', 'u', 'l', 'l'] := by
  intro g rest hg _
  rw [List.append_assoc, readValue_blanks hg]
  simp [readValue, skipBlanks_cons, isBlank, expect, Except.toOption]

theorem reads_string (depth : Nat) (s : String) : Reads (readValue (depth + 1)) (.string s) (stringChars s) := by
  intro g rest hg _
  have hstring := (quoted_stringChars s.toList).stringTail rest
  rw [List.append_assoc, readValue_blanks hg]
  simp [readValue, stringChars, skipBlanks_cons, isBlank, hstring, Except.toOption]

theorem reads_number (depth n : Nat) : Reads (readValue (depth + 1)) (.number n) (Nat.toDigits 10 n) := by
  intro g rest hg hrest
  have hwhole := whole_toDigits n
  generalize Nat.toDigits 10 n = ds at hwhole
  have hvalue : decimal (ds.map fun c => c.toNat - '0'.toNat) = n := by rw [decimal_map, ← hwhole.value]
  have hdigits : wholeDigits (ds ++ rest) = .ok (ds.map fun c => c.toNat - '0'.toNat, rest) :=
    wholeDigits_eq_ok.mpr ⟨ds, by rwa [hvalue], rfl, rfl, fun c hc => (hrest c hc).1⟩
  obtain ⟨d, ds, rfl⟩ := List.exists_cons_of_ne_nil hwhole.ne_nil
  have hd := hwhole.isDigit d (by simp)
  have hne : ∀ c : Char, c.isDigit = false → ∀ cs cs', d :: cs ≠ c :: cs' := by
    rintro c hc cs cs' h
    rw [(List.cons.inj h).1, hc] at hd
    cases hd
  rw [List.append_assoc, readValue_blanks hg, readValue, List.cons_append, skipBlanks_cons (isBlank_of_isDigit hd)]
  split
  · rename_i h
    exact absurd h (hne _ rfl _ _)
  · rename_i h
    exact absurd h (hne _ rfl _ _)
  · rename_i h
    exact absurd h (hne _ rfl _ _)
  · rename_i h
    exact absurd h (hne _ rfl _ _)
  · rw [← List.cons_append, hdigits]
    exact congrArg (fun k => some (Value.number k, rest)) hvalue

theorem reads_array {depth : Nat} {vs : List Value} {body : List Char} {Item : Value → List Char → Prop}
    (h : Items Item true vs body) (hreads : ∀ v ∈ vs, ∀ cs, Item v cs → Reads (readValue depth) v cs)
    (hopens : ∀ v cs, Item v cs → Opens cs) : Reads (readValue (depth + 1)) (.array vs) ('[' :: body ++ [']']) := by
  intro g rest hg _
  have hitems := h.readItems_length (.inl rfl) hreads hopens rest
  rw [List.append_assoc, readValue_blanks hg, List.append_assoc, List.cons_append, List.singleton_append]
  simp only [readValue, skipBlanks_cons (c := '[') rfl, hitems, Option.map_some]

theorem reads_object {depth : Nat} {ms : List (String × Value)} {body : List Char}
    {Item : String × Value → List Char → Prop} (h : Items Item true ms body)
    (hreads : ∀ m ∈ ms, ∀ cs, Item m cs → Reads (readMember (readValue depth)) m cs)
    (hopens : ∀ m cs, Item m cs → Opens cs) :
    Reads (readValue (depth + 1)) (.object ms) ('\x7b' :: body ++ ['\x7d']) := by
  intro g rest hg _
  have hitems := h.readItems_length (.inr rfl) hreads hopens rest
  rw [List.append_assoc, readValue_blanks hg, List.append_assoc, List.cons_append, List.singleton_append]
  simp only [readValue, skipBlanks_cons (c := '\x7b') rfl, hitems, Option.map_some]

theorem depth_pos {v : Value} {level depth : Nat} (h : (layoutValue level v).length ≤ depth) :
    ∃ k, depth = k + 1 := by
  obtain ⟨c, cs, hcs, -⟩ := opens_layoutValue level v
  rw [hcs, List.length_cons] at h
  exact ⟨depth - 1, by omega⟩

/-- A value is read from its layout on any level, within a depth that the length of the layout bounds. -/
theorem reads_layoutValue (v : Value) {level depth : Nat} (h : (layoutValue level v).length ≤ depth) :
    Reads (readValue depth) v (layoutValue level v) := by
  obtain ⟨k, rfl⟩ := depth_pos h
  induction v generalizing level k with
  | null =>
      rw [layoutValue]
      exact reads_null k
  | number n =>
      rw [layoutValue]
      exact reads_number k n
  | string s =>
      rw [layoutValue]
      exact reads_string k s
  | array vs ih =>
      have hitems := items_laidOut (layoutValue (level + 1)) level vs
      rw [layoutValue_array] at h ⊢
      refine reads_array hitems ?_ ?_
      · rintro v hv _ rfl
        obtain ⟨_, rfl, hle⟩ := hitems.length_le_of_mem hv
        have hdepth : (layoutValue (level + 1) v).length ≤ k := by
          simp only [List.length_append, List.length_cons] at h
          omega
        obtain ⟨k, rfl⟩ := depth_pos hdepth
        exact ih v hv k hdepth
      · rintro v _ rfl
        exact opens_layoutValue _ v
  | object ms ih =>
      have hitems := items_laidOut (layoutMember (level + 1)) level ms
      rw [layoutValue_object] at h ⊢
      refine reads_object hitems ?_ ?_
      · rintro ⟨name, v⟩ hm _ rfl
        obtain ⟨_, rfl, hle⟩ := hitems.length_le_of_mem hm
        have hdepth : (layoutValue (level + 1) v).length ≤ k := by
          simp only [layoutMember, List.length_append, List.length_cons] at h hle
          omega
        obtain ⟨k, rfl⟩ := depth_pos hdepth
        rw [layoutMember]
        exact (ih (name, v) hm k hdepth).member name
      · rintro m _ rfl
        exact opens_layoutMember _ m

/-- The text of a value, with a line end after it, is read as the value. -/
theorem ofText?_text (v : Value) : Value.ofText? (v.text ++ "\n") = some v := by
  have hchars : (v.text ++ "\n").toList = [] ++ layoutValue 0 v ++ ['\n'] := by
    rw [String.toList_append, Value.text, String.toList_ofList]
    rfl
  have hlength : (layoutValue 0 v).length ≤ (v.text ++ "\n").length := by
    rw [← String.length_toList, hchars]
    simp
  have hread := reads_layoutValue v hlength [] ['\n'] blanks_nil (numeralEnds_cons (by decide) [])
  rw [Value.ofText?, hchars, hread]
  exact if_pos (skipBlanks_eq_nil.mpr (by simp [Blanks]))

end HexAsm.Json
