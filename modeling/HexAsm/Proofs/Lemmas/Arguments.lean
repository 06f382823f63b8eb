import HexAsm.Command.Arguments
import HexAsm.Proofs.Lemmas.Layout
import Mathlib.Data.List.Nodup
import Mathlib.Data.List.TakeWhile

/-!
# Arguments as written

How switches are written in the arguments of a scope. Reading goes through arguments that give switches as if the
switches were added one by one, and whatever is read as a request is written in this way.
-/

namespace HexAsm

/-! ## Switches and their values -/

/-- The text is a number: digits, with or without a plus sign before them. -/
def CountWritten (n : UInt64) (s : String) : Prop :=
  ∃ ds : List Char, (s.toList = ds ∨ s.toList = '+' :: ds) ∧ ds ≠ [] ∧ (∀ c ∈ ds, c.isDigit = true) ∧
    Nat.ofDigitChars 10 ds 0 = n.toNat

theorem jobsOfText?_eq_some {s : String} {n : UInt64} : jobsOfText? s = some n ↔ CountWritten n s := by
  have hplus : ∀ ds : List Char, (∀ c ∈ ds, c.isDigit = true) → ds.head? ≠ some '+' := by
    intro ds hds hhead
    have := hds '+' (List.mem_of_head? hhead)
    revert this
    decide
  have hvalue : ∀ ds : List Char, ds.foldl (fun v c => 10 * v + (c.toNat - '0'.toNat)) 0 = Nat.ofDigitChars 10 ds 0 :=
    fun _ => rfl
  unfold jobsOfText?
  simp only [hvalue, Option.ite_none_right_eq_some, List.all_eq_true, Option.some.injEq]
  constructor
  · rintro ⟨⟨hne, hds, hlt⟩, rfl⟩
    refine ⟨_, ?_, hne, hds, (UInt64.toNat_ofNat_of_lt hlt).symm⟩
    split
    · rename_i hhead
      obtain ⟨ds, hs⟩ := List.head?_eq_some_iff.mp hhead
      exact .inr (by rw [hs, List.tail_cons])
    · exact .inl rfl
  · rintro ⟨ds, hs, hne, hds, hn⟩
    have hdigits : (if s.toList.head? = some '+' then s.toList.tail else s.toList) = ds := by
      rcases hs with hs | hs
      · rw [hs, if_neg (hplus ds hds)]
      · rw [hs, List.head?_cons, if_pos rfl, List.tail_cons]
    rw [hdigits, hn]
    exact ⟨⟨hne, hds, n.toNat_lt⟩, UInt64.ofNat_toNat⟩

/-- The text can be the value of the switch. -/
def Switch.Takes : Switch → String → Prop
  | .config, v | .input, v | .output, v => v ≠ ""
  | .format, v => v = "text" ∨ v = "json"
  | .jobs, v => ∃ n, CountWritten n v
  | .verbose, _ | .debug, _ | .version, _ | .help, _ | .failFast, _ | .noHeader, _ => True

theorem Format.isSome_ofName? {s : String} : (Format.ofName? s).isSome = true ↔ s = "text" ∨ s = "json" := by
  unfold Format.ofName?
  by_cases ht : s = "text"
  · simp [ht]
  · by_cases hj : s = "json" <;> simp [ht, hj]

theorem Switch.admits_iff {w : Switch} {v : String} : w.admits v = true ↔ w.Takes v := by
  cases w with
  | config | input | output => simp [admits, Takes]
  | format => exact Format.isSome_ofName?
  | jobs => simp [admits, Takes, Option.isSome_iff_exists, jobsOfText?_eq_some]
  | verbose | debug | version | help | failFast | noHeader => simp [admits, Takes]

namespace Given

/-- No switch is given twice, and each can have its value. -/
structure Allowed (g : Given) : Prop where
  once : (g.map Prod.fst).Nodup
  taken : ∀ p ∈ g, p.1.Takes p.2

theorem allowed_nil : Allowed [] := ⟨List.nodup_nil, by simp⟩

theorem Allowed.reverse {g : Given} (h : g.Allowed) : Allowed g.reverse :=
  ⟨by rw [List.map_reverse, List.nodup_reverse]; exact h.once, by simpa using h.taken⟩

theorem lookup_eq_some {g : Given} (h : g.Allowed) {w : Switch} {v : String} : g.lookup w = some v ↔ (w, v) ∈ g := by
  obtain ⟨hnodup, -⟩ := h
  induction g with
  | nil => simp
  | cons p g ih =>
      obtain ⟨k, u⟩ := p
      obtain ⟨hk, hnodup⟩ := List.nodup_cons.mp hnodup
      by_cases hw : w = k
      · subst hw
        have hmem : ∀ v, (w, v) ∉ g := fun v hv => hk (List.mem_map.mpr ⟨_, hv, rfl⟩)
        simp [hmem, eq_comm]
      · have hb : (w == k) = false := by simpa using hw
        rw [List.lookup_cons, hb, ih hnodup]
        simp [hw]

theorem lookup_reverse_eq_some {g : Given} (h : g.Allowed) {w : Switch} {v : String} :
    g.reverse.lookup w = some v ↔ (w, v) ∈ g := by
  rw [lookup_eq_some h.reverse, List.mem_reverse]

theorem add?_eq_some {g g' : Given} (hg : g.Allowed) {w : Switch} {v : String} :
    g.add? w v = some g' ↔ g' = (w, v) :: g ∧ Allowed ((w, v) :: g) := by
  have hfresh : (g.lookup w).isNone = true ↔ w ∉ g.map Prod.fst := by
    rw [Option.isNone_iff_eq_none, List.lookup_eq_none_iff, List.mem_map, not_exists]
    exact forall_congr' fun p => by simp [eq_comm (a := w)]
  simp only [add?, Option.ite_none_right_eq_some, Bool.and_eq_true, hfresh, Switch.admits_iff, Option.some.injEq]
  constructor
  · rintro ⟨⟨hw, hv⟩, rfl⟩
    exact ⟨rfl, List.nodup_cons.mpr ⟨hw, hg.once⟩, List.forall_mem_cons.mpr ⟨hv, hg.taken⟩⟩
  · rintro ⟨rfl, h⟩
    exact ⟨⟨(List.nodup_cons.mp h.once).1, h.taken (w, v) (by simp)⟩, rfl⟩

/-- Adds switches in their order. -/
def addAll? (g : Given) : Given → Option Given
  | [] => some g
  | (w, v) :: ps => (g.add? w v).bind fun g => g.addAll? ps

theorem addAll?_singleton {g : Given} {w : Switch} {v : String} : g.addAll? [(w, v)] = g.add? w v := by
  cases h : g.add? w v <;> simp [addAll?, h]

theorem addAll?_append (g ps qs : Given) : g.addAll? (ps ++ qs) = (g.addAll? ps).bind fun g => g.addAll? qs := by
  induction ps generalizing g with
  | nil => rfl
  | cons p ps ih =>
      simp only [List.cons_append, addAll?, Option.bind_assoc]
      exact congrArg _ (funext ih)

theorem addAll?_eq_some {g g' ps : Given} (hg : g.Allowed) :
    g.addAll? ps = some g' ↔ g' = ps.reverse ++ g ∧ Allowed (ps.reverse ++ g) := by
  induction ps generalizing g with
  | nil => simp [addAll?, hg, eq_comm]
  | cons p ps ih =>
      obtain ⟨w, v⟩ := p
      have hshift : ((w, v) :: ps).reverse ++ g = ps.reverse ++ (w, v) :: g := by simp
      rw [addAll?, hshift, Option.bind_eq_some_iff]
      constructor
      · rintro ⟨g₁, hadd, h⟩
        obtain ⟨rfl, hg₁⟩ := (add?_eq_some hg).mp hadd
        exact (ih hg₁).mp h
      · rintro ⟨rfl, h⟩
        have hg₁ : Allowed ((w, v) :: g) :=
          ⟨h.once.sublist ((List.sublist_append_right ..).map _), fun p hp => h.taken p (List.mem_append_right _ hp)⟩
        exact ⟨_, (add?_eq_some hg).mpr ⟨rfl, hg₁⟩, (ih hg₁).mpr ⟨rfl, h⟩⟩

end Given

/-! ## Arguments -/

namespace Scope

/-- A switch without a value may stand in the scope, and it does not end the reading. -/
def HasFlag (scope : Scope) (w : Switch) : Prop :=
  w ∈ scope.switches ∧ w.takesValue = false ∧ w ≠ .version ∧ w ≠ .help

/-- A switch with a value may stand in the scope. -/
def HasValued (scope : Scope) (w : Switch) : Prop := w ∈ scope.switches ∧ w.takesValue = true

/-- The letters behind one dash give the switches. The last one may have a value, which follows at once or behind an
equals sign, or else is the next argument. -/
inductive LettersGive (scope : Scope) : List Char → Given → Option Switch → Prop
  | nil : LettersGive scope [] [] none
  | flag {w c cs ps next} : scope.HasFlag w → w.letter? = some c → LettersGive scope cs ps next →
      LettersGive scope (c :: cs) ((w, "") :: ps) next
  | joined {w c v} : scope.HasValued w → w.letter? = some c → v ≠ [] → v.head? ≠ some '=' →
      LettersGive scope (c :: v) [(w, String.ofList v)] none
  | equals {w c v} : scope.HasValued w → w.letter? = some c →
      LettersGive scope (c :: '=' :: v) [(w, String.ofList v)] none
  | next {w c} : scope.HasValued w → w.letter? = some c → LettersGive scope [c] [] (some w)

/-- The argument gives the switches, and perhaps one more whose value is the next argument. -/
inductive ArgumentGives (scope : Scope) : List Char → Given → Option Switch → Prop
  | flag {w} : scope.HasFlag w → ArgumentGives scope ('-' :: '-' :: w.longName.toList) [(w, "")] none
  | equals {w v} : scope.HasValued w →
      ArgumentGives scope ('-' :: '-' :: (w.longName.toList ++ '=' :: v)) [(w, String.ofList v)] none
  | next {w} : scope.HasValued w → ArgumentGives scope ('-' :: '-' :: w.longName.toList) [] (some w)
  | letters {cs ps next} : cs ≠ [] → scope.LettersGive cs ps next → ArgumentGives scope ('-' :: cs) ps next

/-- The argument starts with a dash and goes on, so that it cannot be a value. -/
def Dashed (s : String) : Prop := ∃ c cs, s.toList = '-' :: c :: cs

/-- The arguments give the switches. -/
inductive ArgumentsGive (scope : Scope) : List String → Given → Prop
  | nil : ArgumentsGive scope [] []
  | argument {a as ps qs} : scope.ArgumentGives a.toList ps none → ArgumentsGive scope as qs →
      ArgumentsGive scope (a :: as) (ps ++ qs)
  | valued {a v as w ps qs} : scope.ArgumentGives a.toList ps (some w) → ¬ Dashed v → ArgumentsGive scope as qs →
      ArgumentsGive scope (a :: v :: as) (ps ++ (w, v) :: qs)

theorem looksLikeSwitch_iff {s : String} : looksLikeSwitch s = true ↔ Dashed s := by
  unfold looksLikeSwitch Dashed
  split
  · rename_i c cs hs
    simp [hs]
  · rename_i hs
    simpa using fun c cs h => hs c cs h

/-! ## The switches that are given stand in the scope -/

theorem LettersGive.mem {scope : Scope} {cs : List Char} {ps : Given} {next : Option Switch}
    (h : scope.LettersGive cs ps next) : (∀ p ∈ ps, p.1 ∈ scope.switches) ∧ ∀ w ∈ next, w ∈ scope.switches := by
  induction h with
  | nil => simp
  | flag hw _ _ ih => exact ⟨List.forall_mem_cons.mpr ⟨hw.1, ih.1⟩, ih.2⟩
  | joined hw _ _ _ => simpa using hw.1
  | equals hw _ => simpa using hw.1
  | next hw _ => simpa using hw.1

theorem ArgumentGives.mem {scope : Scope} {cs : List Char} {ps : Given} {next : Option Switch}
    (h : scope.ArgumentGives cs ps next) : (∀ p ∈ ps, p.1 ∈ scope.switches) ∧ ∀ w ∈ next, w ∈ scope.switches := by
  cases h with
  | flag hw => simpa using hw.1
  | equals hw => simpa using hw.1
  | next hw => simpa using hw.1
  | letters _ h => exact h.mem

theorem ArgumentsGive.mem {scope : Scope} {as : List String} {ps : Given} (h : scope.ArgumentsGive as ps) :
    ∀ p ∈ ps, p.1 ∈ scope.switches := by
  induction h with
  | nil => simp
  | argument h _ ih => exact List.forall_mem_append.mpr ⟨h.mem.1, ih⟩
  | valued h _ _ ih => exact List.forall_mem_append.mpr ⟨h.mem.1, List.forall_mem_cons.mpr ⟨h.mem.2 _ rfl, ih⟩⟩

end Scope

/-! ## Tables -/

namespace Switch

theorem longName_injective {w w' : Switch} (h : w.longName = w'.longName) : w = w' := by
  cases w <;> cases w' <;> first | rfl | exact absurd h (by decide)

theorem letter?_injective {w w' : Switch} {c : Char} (h : w.letter? = some c) (h' : w'.letter? = some c) : w = w' := by
  cases w <;> cases h <;> cases w' <;> first | rfl | exact absurd h' (by decide)

theorem longName_ne_nil (w : Switch) : w.longName.toList ≠ [] := by
  cases w <;> decide

theorem longName_ne_equals (w : Switch) : ∀ c ∈ w.longName.toList, (c != '=') = true :=
  List.all_eq_true.mp (by cases w <;> decide)

theorem letter?_ne_dash {w : Switch} {c : Char} (h : w.letter? = some c) : c ≠ '-' := by
  cases w <;> cases h <;> decide

end Switch

namespace Scope

variable {scope : Scope}

theorem find?_longName {w : Switch} {name : String} :
    scope.switches.find? (fun w => w.longName == name) = some w ↔ w ∈ scope.switches ∧ w.longName = name := by
  rw [find?_eq_some_of_unique, beq_iff_eq]
  intro a _ b _ ha hb
  exact Switch.longName_injective ((eq_of_beq ha).trans (eq_of_beq hb).symm)

theorem find?_letter? {w : Switch} {c : Char} :
    scope.switches.find? (fun w => w.letter? == some c) = some w ↔ w ∈ scope.switches ∧ w.letter? = some c := by
  rw [find?_eq_some_of_unique, beq_iff_eq]
  intro a _ b _ ha hb
  exact Switch.letter?_injective (eq_of_beq ha) (eq_of_beq hb)

end Scope

/-! ## Mentions -/

/-- The switches given so far, and the one that waits for its value. -/
def Progress.ofGiven (g : Given) : Option Switch → Progress
  | none => .ready g
  | some w => .awaiting g w

section

variable {scope : Scope} {g g' : Given} {ms : List Mention} {w : Switch} {next : Option Switch}

theorem takeMentions_nil_eq : takeMentions g [] = .ofGiven g' next ↔ next = none ∧ g' = g := by
  cases next <;> simp [takeMentions, Progress.ofGiven, eq_comm]

theorem takeMentions_unknown_ne : takeMentions g [.unknown] ≠ .ofGiven g' next := by
  cases next <;> simp [takeMentions, Progress.ofGiven]

theorem takeMentions_awaiting_eq : takeMentions g [.awaiting w] = .ofGiven g' next ↔ next = some w ∧ g' = g := by
  cases next <;> simp [takeMentions, Progress.ofGiven, eq_comm, and_comm]

theorem takeMentions_valued_eq {v : String} :
    takeMentions g [.valued w v] = .ofGiven g' next ↔ next = none ∧ g.add? w v = some g' := by
  rw [takeMentions]
  cases g.add? w v with
  | none => cases next <;> simp [Progress.ofGiven]
  | some g₁ => simp [takeMentions_nil_eq, eq_comm]

theorem takeMentions_flag (hv : w ≠ .version) (hh : w ≠ .help) :
    takeMentions g (.flag w :: ms) = (g.add? w "").elim .refused (takeMentions · ms) := by
  rw [takeMentions]
  · cases g.add? w "" <;> rfl
  · exact hv
  · exact hh

theorem takeMentions_flag_eq :
    takeMentions g (.flag w :: ms) = .ofGiven g' next ↔
      (w ≠ .version ∧ w ≠ .help) ∧ ∃ g₁, g.add? w "" = some g₁ ∧ takeMentions g₁ ms = .ofGiven g' next := by
  by_cases hv : w = .version
  · subst hv
    cases next <;> simp [takeMentions, Progress.ofGiven]
  · by_cases hh : w = .help
    · subst hh
      cases next <;> simp [takeMentions, Progress.ofGiven]
    · rw [takeMentions_flag hv hh]
      cases g.add? w "" with
      | none => cases next <;> simp [Progress.ofGiven]
      | some g₁ => simp [hv, hh]

/-! ## Letters -/

theorem clusterMentions_flag {c : Char} (hw : w ∈ scope.switches) (hv : w.takesValue = false)
    (hc : w.letter? = some c) (cs : List Char) :
    clusterMentions scope (c :: cs) = .flag w :: clusterMentions scope cs := by
  rw [clusterMentions, Scope.find?_letter?.mpr ⟨hw, hc⟩]
  simp [hv]

theorem clusterMentions_valued {c : Char} (hw : scope.HasValued w) (hc : w.letter? = some c) (cs : List Char) :
    clusterMentions scope (c :: cs) =
      match cs with
      | [] => [.awaiting w]
      | '=' :: value => [.valued w (String.ofList value)]
      | value => [.valued w (String.ofList value)] := by
  rw [clusterMentions, Scope.find?_letter?.mpr ⟨hw.1, hc⟩]
  exact if_pos hw.2

theorem Scope.LettersGive.takeMentions_eq {cs : List Char} {ps : Given} (h : scope.LettersGive cs ps next)
    (hadd : g.addAll? ps = some g') : takeMentions g (clusterMentions scope cs) = .ofGiven g' next := by
  induction h generalizing g with
  | nil => exact takeMentions_nil_eq.mpr ⟨rfl, (Option.some.inj hadd).symm⟩
  | flag hw hc _ ih =>
      obtain ⟨g₁, hg₁, hadd⟩ := Option.bind_eq_some_iff.mp hadd
      rw [clusterMentions_flag hw.1 hw.2.1 hc]
      exact takeMentions_flag_eq.mpr ⟨hw.2.2, g₁, hg₁, ih hadd⟩
  | @joined w c v hw hc hne hv =>
      obtain ⟨d, v, rfl⟩ := List.exists_cons_of_ne_nil hne
      have hd : d ≠ '=' := by simpa using hv
      rw [clusterMentions_valued hw hc]
      split
      · contradiction
      · simp_all
      · exact takeMentions_valued_eq.mpr ⟨rfl, Given.addAll?_singleton.symm.trans hadd⟩
  | equals hw hc =>
      rw [clusterMentions_valued hw hc]
      exact takeMentions_valued_eq.mpr ⟨rfl, Given.addAll?_singleton.symm.trans hadd⟩
  | next hw hc =>
      rw [clusterMentions_valued hw hc]
      exact takeMentions_awaiting_eq.mpr ⟨rfl, (Option.some.inj hadd).symm⟩

theorem lettersGive_of_takeMentions {cs : List Char}
    (h : takeMentions g (clusterMentions scope cs) = .ofGiven g' next) :
    ∃ ps, scope.LettersGive cs ps next ∧ g.addAll? ps = some g' := by
  induction cs generalizing g with
  | nil =>
      obtain ⟨rfl, rfl⟩ := takeMentions_nil_eq.mp h
      exact ⟨[], .nil, rfl⟩
  | cons c cs ih =>
      cases hf : scope.switches.find? (fun w => w.letter? == some c) with
      | none =>
          rw [clusterMentions, hf] at h
          exact absurd h takeMentions_unknown_ne
      | some w =>
          obtain ⟨hw, hc⟩ := Scope.find?_letter?.mp hf
          cases hv : w.takesValue with
          | true =>
              have hvalued : scope.HasValued w := ⟨hw, hv⟩
              rw [clusterMentions_valued hvalued hc] at h
              split at h
              · obtain ⟨rfl, rfl⟩ := takeMentions_awaiting_eq.mp h
                exact ⟨[], .next hvalued hc, rfl⟩
              · obtain ⟨rfl, hadd⟩ := takeMentions_valued_eq.mp h
                exact ⟨_, .equals hvalued hc, Given.addAll?_singleton.trans hadd⟩
              · rename_i hne heq
                obtain ⟨rfl, hadd⟩ := takeMentions_valued_eq.mp h
                refine ⟨_, .joined hvalued hc hne fun hhead => ?_, Given.addAll?_singleton.trans hadd⟩
                obtain ⟨v, rfl⟩ := List.head?_eq_some_iff.mp hhead
                exact heq v rfl
          | false =>
              rw [clusterMentions_flag hw hv hc] at h
              obtain ⟨hends, g₁, hg₁, h⟩ := takeMentions_flag_eq.mp h
              obtain ⟨ps, hps, hadd⟩ := ih h
              exact ⟨_, .flag ⟨hw, hv, hends⟩ hc hps, Option.bind_eq_some_iff.mpr ⟨g₁, hg₁, hadd⟩⟩

/-! ## Long names -/

theorem longMention_name (hw : w ∈ scope.switches) :
    longMention scope w.longName.toList = if w.takesValue then .awaiting w else .flag w := by
  have hname : w.longName.toList.takeWhile (· != '=') = w.longName.toList :=
    List.takeWhile_eq_self_iff.mpr w.longName_ne_equals
  have hrest : w.longName.toList.dropWhile (· != '=') = [] := List.dropWhile_eq_nil_iff.mpr w.longName_ne_equals
  rw [longMention, hname, hrest, String.ofList_toList, Scope.find?_longName.mpr ⟨hw, rfl⟩]

theorem longMention_equals (hw : scope.HasValued w) (v : List Char) :
    longMention scope (w.longName.toList ++ '=' :: v) = .valued w (String.ofList v) := by
  have hname : (w.longName.toList ++ '=' :: v).takeWhile (· != '=') = w.longName.toList := by
    rw [List.takeWhile_append_of_pos w.longName_ne_equals]
    simp
  have hrest : (w.longName.toList ++ '=' :: v).dropWhile (· != '=') = '=' :: v := by
    rw [List.dropWhile_append_of_pos w.longName_ne_equals]
    simp
  rw [longMention, hname, hrest, String.ofList_toList, Scope.find?_longName.mpr ⟨hw.1, rfl⟩]
  simp [hw.2]

/-- A long switch is unknown, or it is the name of one, perhaps with a value behind an equals sign. -/
theorem longMention_cases (scope : Scope) (cs : List Char) :
    longMention scope cs = .unknown ∨
      ∃ w ∈ scope.switches, cs = w.longName.toList ∨
        scope.HasValued w ∧ ∃ v, cs = w.longName.toList ++ '=' :: v := by
  cases hf : scope.switches.find? fun w => w.longName == String.ofList (cs.takeWhile (· != '=')) with
  | none => exact .inl (by simp only [longMention, hf])
  | some w =>
      obtain ⟨hw, hname⟩ := Scope.find?_longName.mp hf
      have hcs : cs = w.longName.toList ++ cs.dropWhile (· != '=') := by
        rw [hname, String.toList_ofList, List.takeWhile_append_dropWhile]
      cases hrest : cs.dropWhile (· != '=') with
      | nil => exact .inr ⟨w, hw, .inl (by rw [hcs, hrest, List.append_nil])⟩
      | cons c v =>
          have hc : c = '=' := by
            have := List.head?_dropWhile_not (· != '=') cs
            simpa [hrest] using this
          cases hv : w.takesValue with
          | false => exact .inl (by simp only [longMention, hf, hrest, hv, Bool.false_eq_true, if_false])
          | true => exact .inr ⟨w, hw, .inr ⟨⟨hw, hv⟩, v, by rw [← hc, ← hrest]; exact hcs⟩⟩

/-! ## Single arguments -/

theorem ofChars_long {cs : List Char} (h : cs ≠ []) :
    Argument.ofChars scope ('-' :: '-' :: cs) = .switches [longMention scope cs] := by
  obtain ⟨c, cs, rfl⟩ := List.exists_cons_of_ne_nil h
  rfl

theorem ofChars_letters {c : Char} (h : c ≠ '-') (cs : List Char) :
    Argument.ofChars scope ('-' :: c :: cs) = .switches (clusterMentions scope (c :: cs)) := by
  unfold Argument.ofChars
  split <;> simp_all

theorem eq_of_ofChars_dashes {a : String} (h : Argument.ofChars scope a.toList = .dashes) : a = "--" := by
  unfold Argument.ofChars at h
  split at h
  · rename_i ha
    rw [← String.toList_inj, ha]
    rfl
  · cases h
  · cases h
  · cases h

theorem Scope.LettersGive.ne_dash {c : Char} {cs : List Char} {ps : Given} (h : scope.LettersGive (c :: cs) ps next) :
    c ≠ '-' := by
  cases h with
  | flag _ hc _ => exact Switch.letter?_ne_dash hc
  | joined _ hc _ _ => exact Switch.letter?_ne_dash hc
  | equals _ hc => exact Switch.letter?_ne_dash hc
  | next _ hc => exact Switch.letter?_ne_dash hc

theorem Scope.ArgumentGives.takeMentions_eq {cs : List Char} {ps : Given} (h : scope.ArgumentGives cs ps next)
    (hadd : g.addAll? ps = some g') :
    ∃ ms, Argument.ofChars scope cs = .switches ms ∧ takeMentions g ms = .ofGiven g' next := by
  cases h with
  | @flag w hw =>
      refine ⟨_, ofChars_long w.longName_ne_nil, ?_⟩
      rw [longMention_name hw.1, hw.2.1]
      rw [Given.addAll?_singleton] at hadd
      exact takeMentions_flag_eq.mpr ⟨hw.2.2, g', hadd, takeMentions_nil_eq.mpr ⟨rfl, rfl⟩⟩
  | @equals w v hw =>
      refine ⟨_, ofChars_long (by simp), ?_⟩
      rw [longMention_equals hw]
      exact takeMentions_valued_eq.mpr ⟨rfl, Given.addAll?_singleton.symm.trans hadd⟩
  | @next w hw =>
      refine ⟨_, ofChars_long w.longName_ne_nil, ?_⟩
      rw [longMention_name hw.1, hw.2]
      exact takeMentions_awaiting_eq.mpr ⟨rfl, (Option.some.inj hadd).symm⟩
  | @letters cs ps next hne h =>
      obtain ⟨c, cs, rfl⟩ := List.exists_cons_of_ne_nil hne
      exact ⟨_, ofChars_letters h.ne_dash cs, h.takeMentions_eq hadd⟩

theorem argumentGives_of_takeMentions {cs : List Char} (hcs : Argument.ofChars scope cs = .switches ms)
    (h : takeMentions g ms = .ofGiven g' next) : ∃ ps, scope.ArgumentGives cs ps next ∧ g.addAll? ps = some g' := by
  unfold Argument.ofChars at hcs
  split at hcs
  · cases hcs
  · rename_i cs _
    cases hcs
    rcases longMention_cases scope cs with hunknown | ⟨w, hw, rfl | ⟨hvalued, v, rfl⟩⟩
    · rw [hunknown] at h
      exact absurd h takeMentions_unknown_ne
    · rw [longMention_name hw] at h
      cases hv : w.takesValue with
      | true =>
          rw [hv] at h
          obtain ⟨rfl, rfl⟩ := takeMentions_awaiting_eq.mp h
          exact ⟨[], .next ⟨hw, hv⟩, rfl⟩
      | false =>
          rw [hv] at h
          obtain ⟨hends, g₁, hadd, h⟩ := takeMentions_flag_eq.mp h
          obtain ⟨rfl, rfl⟩ := takeMentions_nil_eq.mp h
          exact ⟨_, .flag ⟨hw, hv, hends⟩, Given.addAll?_singleton.trans hadd⟩
    · rw [longMention_equals hvalued] at h
      obtain ⟨rfl, hadd⟩ := takeMentions_valued_eq.mp h
      exact ⟨_, .equals hvalued, Given.addAll?_singleton.trans hadd⟩
  · cases hcs
    obtain ⟨ps, hps, hadd⟩ := lettersGive_of_takeMentions h
    exact ⟨ps, .letters (by simp) hps, hadd⟩
  · cases hcs

end

/-! ## Reading -/

/-- The name of the task. -/
def Task.name : Task → String
  | .assemble => "assemble"
  | .disassemble => "disassemble"

theorem Task.ofName?_eq_some {s : String} {t : Task} : Task.ofName? s = some t ↔ s = t.name := by
  unfold Task.ofName?
  by_cases ha : s = "assemble"
  · subst ha
    cases t <;> decide
  · by_cases hd : s = "disassemble"
    · subst hd
      cases t <;> decide
    · cases t <;> simp [ha, hd, Task.name]

namespace Invocation

variable {scope : Scope} {g g' : Given} {w : Switch} {r : Request}

theorem read_switches {a : String} {ms : List Mention} (h : Argument.ofChars scope a.toList = .switches ms)
    (before : Given) (rest : List String) :
    read scope before g (a :: rest) =
      match takeMentions g ms with
      | .refused => none
      | .answered i => some i
      | .ready g => read scope before g rest
      | .awaiting g w =>
        match rest with
        | [] => none
        | v :: rest => if looksLikeSwitch v then none else (g.add? w v).bind fun g => read scope before g rest := by
  rw [read.eq_def]
  simp only [h]
  cases takeMentions g ms with
  | refused | answered i | ready g => rfl
  | awaiting g w =>
      cases rest with
      | nil => rfl
      | cons v rest =>
          dsimp only
          cases g.add? w v <;> rfl

theorem read_of_argumentGives {a : String} {ps : Given} (h : scope.ArgumentGives a.toList ps none)
    (hadd : g.addAll? ps = some g') (before : Given) (rest : List String) :
    read scope before g (a :: rest) = read scope before g' rest := by
  obtain ⟨ms, hms, ht⟩ := h.takeMentions_eq hadd
  rw [read_switches hms, ht]
  rfl

theorem read_of_argumentGives_value {a v : String} {ps : Given} (h : scope.ArgumentGives a.toList ps (some w))
    (hv : ¬ Scope.Dashed v) (hadd : g.addAll? (ps ++ [(w, v)]) = some g') (before : Given) (rest : List String) :
    read scope before g (a :: v :: rest) = read scope before g' rest := by
  rw [Given.addAll?_append] at hadd
  obtain ⟨g₁, hg₁, hadd⟩ := Option.bind_eq_some_iff.mp hadd
  rw [Given.addAll?_singleton] at hadd
  rw [← Scope.looksLikeSwitch_iff] at hv
  obtain ⟨ms, hms, ht⟩ := h.takeMentions_eq hg₁
  rw [read_switches hms, ht]
  simp only [Progress.ofGiven, hv, hadd, Bool.false_eq_true, if_false, Option.bind_some]

/-- Arguments that give switches are read by adding the switches. -/
theorem read_append {as : List String} {ps : Given} (h : scope.ArgumentsGive as ps) (hadd : g.addAll? ps = some g')
    (before : Given) (rest : List String) : read scope before g (as ++ rest) = read scope before g' rest := by
  induction h generalizing g with
  | nil => rw [List.nil_append, Option.some.inj hadd]
  | argument h _ ih =>
      rw [Given.addAll?_append] at hadd
      obtain ⟨g₁, hg₁, hadd⟩ := Option.bind_eq_some_iff.mp hadd
      rw [List.cons_append, read_of_argumentGives h hg₁, ih hadd]
  | @valued a v as w ps qs h hv _ ih =>
      rw [List.append_cons, Given.addAll?_append] at hadd
      obtain ⟨g₁, hg₁, hadd⟩ := Option.bind_eq_some_iff.mp hadd
      rw [List.cons_append, List.cons_append, read_of_argumentGives_value h hv hg₁, ih hadd]

/-- How the arguments of a scope may end: the task has nothing after its switches but perhaps two dashes, and the
program has the task. -/
inductive Ends (before g : Given) (r : Request) : Scope → List String → Prop
  | task {t rest} : rest = [] ∨ rest = ["--"] → r = Request.ofGiven t before g → Ends before g r (.task t) rest
  | program {t rest} : read (.task t) g [] rest = some (.run r) → Ends before g r .program (t.name :: rest)

theorem takeMentions_ne_run {ms : List Mention} : takeMentions g ms ≠ .answered (.run r) := by
  fun_induction takeMentions g ms <;> simp_all

theorem ofHelp_ne_run {names : List String} : ofHelp names ≠ some (.run r) := by
  unfold ofHelp
  split <;> simp

/-- An argument that is read on the way to a request gives switches, takes the next argument as a value, or ends the
scope. -/
theorem read_cons_cases {before : Given} {a : String} {rest : List String}
    (h : read scope before g (a :: rest) = some (.run r)) :
    (∃ ps g', scope.ArgumentGives a.toList ps none ∧ g.addAll? ps = some g' ∧
        read scope before g' rest = some (.run r)) ∨
      (∃ ps w v rest' g', rest = v :: rest' ∧ scope.ArgumentGives a.toList ps (some w) ∧ ¬ Scope.Dashed v ∧
        g.addAll? (ps ++ [(w, v)]) = some g' ∧ read scope before g' rest' = some (.run r)) ∨
      Ends before g r scope (a :: rest) := by
  cases hms : Argument.ofChars scope a.toList with
  | dashes =>
      rw [read.eq_def] at h
      simp only [hms] at h
      rw [eq_of_ofChars_dashes hms]
      split at h
      · exact .inr (.inr (.task (.inr rfl) (by simpa using h.symm)))
      · cases h
  | plain =>
      rw [read.eq_def] at h
      simp only [hms] at h
      split at h
      · rename_i t ht
        rw [Task.ofName?_eq_some.mp ht]
        exact .inr (.inr (.program h))
      · rw [Option.ite_none_right_eq_some] at h
        exact absurd h.2 ofHelp_ne_run
      · cases h
  | switches ms =>
      rw [read_switches hms] at h
      cases ht : takeMentions g ms with
      | refused => simp [ht] at h
      | answered i =>
          rw [ht] at h
          cases h
          exact absurd ht takeMentions_ne_run
      | ready g' =>
          rw [ht] at h
          have hgiven : takeMentions g ms = .ofGiven g' none := ht
          obtain ⟨ps, hps, hadd⟩ := argumentGives_of_takeMentions hms hgiven
          exact .inl ⟨ps, g', hps, hadd, h⟩
      | awaiting g₁ w =>
          rw [ht] at h
          have hgiven : takeMentions g ms = .ofGiven g₁ (some w) := ht
          obtain ⟨ps, hps, hadd⟩ := argumentGives_of_takeMentions hms hgiven
          cases rest with
          | nil => cases h
          | cons v rest =>
              simp only [Option.ite_none_left_eq_some, Option.bind_eq_some_iff, Scope.looksLikeSwitch_iff] at h
              obtain ⟨hv, g', hadd', h⟩ := h
              refine .inr (.inl ⟨ps, w, v, rest, g', rfl, hps, hv, ?_, h⟩)
              rw [Given.addAll?_append, hadd, Option.bind_some, Given.addAll?_singleton, hadd']

/-- What is read as a request is arguments that give switches, and the end of the scope. -/
theorem exists_argumentsGive {before : Given} {args : List String} (h : read scope before g args = some (.run r)) :
    ∃ as rest ps g', args = as ++ rest ∧ scope.ArgumentsGive as ps ∧ g.addAll? ps = some g' ∧
      Ends before g' r scope rest := by
  induction hn : args.length using Nat.strongRecOn generalizing args g with
  | _ n ih =>
      cases args with
      | nil =>
          cases scope with
          | program => simp [read] at h
          | task t => exact ⟨[], [], [], g, rfl, .nil, rfl, .task (.inl rfl) (by simpa [read] using h.symm)⟩
      | cons a rest =>
          subst hn
          rcases read_cons_cases h with ⟨ps, g₁, ha, hg₁, h⟩ | ⟨ps, w, v, rest, g₁, rfl, ha, hv, hg₁, h⟩ | hend
          · obtain ⟨as, rest, qs, g', rfl, has, hadd, hend⟩ := ih _ (by simp) h rfl
            refine ⟨a :: as, rest, ps ++ qs, g', rfl, .argument ha has, ?_, hend⟩
            rw [Given.addAll?_append, hg₁]
            exact hadd
          · obtain ⟨as, rest, qs, g', rfl, has, hadd, hend⟩ := ih _ (by simp only [List.length_cons]; omega) h rfl
            refine ⟨a :: v :: as, rest, ps ++ (w, v) :: qs, g', rfl, .valued ha hv has, ?_, hend⟩
            rw [List.append_cons, Given.addAll?_append, hg₁]
            exact hadd
          · exact ⟨[], a :: rest, [], g, rfl, .nil, rfl, hend⟩

end Invocation

end HexAsm
