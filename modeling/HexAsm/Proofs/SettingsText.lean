import HexAsm.Proofs.Lemmas.JsonText
import HexAsm.Settings.Reader
import Mathlib.Data.List.Nodup

/-!
# The texts that give settings

A text gives settings exactly if it is a JSON object with a member for each of some settings, in any order, or a JSON
array of values for the first of them. The settings it gives are the ones written, with defaults for all others.
-/

namespace HexAsm

open HexAsm.Json

/-! ## Documents -/

/-- A setting with a value for it. -/
inductive Choice where
  | keepGoing (b : Bool)
  | header (b : Bool)
  | jobs (n : Option UInt64)

namespace Choice

def setting : Choice → Setting
  | .keepGoing _ => .keepGoing
  | .header _ => .header
  | .jobs _ => .jobs

/-- The name of a choice in an object. -/
def name : Choice → String
  | .keepGoing _ => "continue_on_error"
  | .header _ => "header"
  | .jobs _ => "jobs"

/-- The settings with the value of the choice. -/
def apply (s : Settings) : Choice → Settings
  | .keepGoing b => { s with keepGoing := b }
  | .header b => { s with header := b }
  | .jobs n => { s with jobs := n }

def boolChars (b : Bool) : List Char :=
  if b then ['t', 'r', 'u', 'e'] else ['f', 'a', 'l', 's', 'e']

/-- The value of a choice as it is written. -/
inductive Written : Choice → List Char → Prop
  | keepGoing (b) : Written (.keepGoing b) (boolChars b)
  | header (b) : Written (.header b) (boolChars b)
  | noJobs : Written (.jobs none) ['n', 'u', 'l', 'l']
  | jobs {n : UInt64} {ds} : Whole n.toNat ds → Written (.jobs (some n)) ds

/-- A choice as a member of an object: its name, a colon and its value. -/
inductive Member : Choice → List Char → Prop
  | member {c t g g' v} : Quoted c.name.toList t → Blanks g → Blanks g' → c.Written v →
      Member c ('"' :: t ++ '"' :: g ++ ':' :: g' ++ v)

end Choice

/-- A JSON text that gives the choices: an object with a member for each of them and no name twice, or an array of the
values of the first settings. -/
inductive Document : List Choice → List Char → Prop
  | object {choices g body g'} : Blanks g → Items Choice.Member true choices body →
      (choices.map Choice.name).Nodup → Blanks g' → Document choices (g ++ '\x7b' :: body ++ '\x7d' :: g')
  | array {choices g body g'} : Blanks g → Items Choice.Written true choices body →
      choices.map Choice.setting <+: [.keepGoing, .header, .jobs] → Blanks g' →
      Document choices (g ++ '[' :: body ++ ']' :: g')

namespace Settings

/-- The value of a setting. -/
def choice (s : Settings) : Setting → Choice
  | .keepGoing => .keepGoing s.keepGoing
  | .header => .header s.header
  | .jobs => .jobs s.jobs

/-- The settings have the values chosen, and are the default ones otherwise. -/
structure Has (s : Settings) (choices : List Choice) : Prop where
  chosen : ∀ c ∈ choices, s.choice c.setting = c
  others : ∀ m, m ∉ choices.map Choice.setting → s.choice m = (⟨true, true, none⟩ : Settings).choice m

/-! ## Names -/

theorem ofName?_eq_some {s : String} {m : Setting} : Setting.ofName? s = some m ↔ m.name = s := by
  constructor
  · intro h
    have hm := List.find?_some h
    exact beq_iff_eq.mp hm
  · rintro rfl
    cases m <;> decide

theorem name_setting (c : Choice) : c.setting.name = c.name := by
  cases c <;> rfl

theorem name_injective : Function.Injective Setting.name := by
  intro m m' h
  have hname := ofName?_eq_some.mpr h
  rw [ofName?_eq_some.mpr rfl] at hname
  exact (Option.some.inj hname).symm

theorem nodup_names {choices : List Choice} :
    (choices.map Choice.name).Nodup ↔ (choices.map Choice.setting).Nodup := by
  have hnames : choices.map Choice.name = (choices.map Choice.setting).map Setting.name := by
    rw [List.map_map]
    exact List.map_congr_left fun c _ => (name_setting c).symm
  rw [hnames, List.nodup_map_iff name_injective]

/-! ## Choices applied in order -/

theorem choice_apply (s : Settings) (c : Choice) : (c.apply s).choice c.setting = c := by
  cases c <;> rfl

theorem choice_apply_of_ne (s : Settings) {c : Choice} {m : Setting} (h : m ≠ c.setting) :
    (c.apply s).choice m = s.choice m := by
  cases c <;> cases m <;> first | rfl | exact absurd rfl h

theorem choice_foldl_of_notMem (s : Settings) {choices : List Choice} {m : Setting}
    (h : m ∉ choices.map Choice.setting) : (choices.foldl Choice.apply s).choice m = s.choice m := by
  induction choices generalizing s with
  | nil => rfl
  | cons c choices ih =>
      simp only [List.map_cons, List.mem_cons, not_or] at h
      rw [List.foldl_cons, ih _ h.2, choice_apply_of_ne s h.1]

theorem choice_foldl_of_mem (s : Settings) {choices : List Choice} {c : Choice}
    (hnodup : (choices.map Choice.setting).Nodup) (hc : c ∈ choices) :
    (choices.foldl Choice.apply s).choice c.setting = c := by
  induction choices generalizing s with
  | nil => cases hc
  | cons d choices ih =>
      rw [List.map_cons, List.nodup_cons] at hnodup
      rw [List.foldl_cons]
      rcases List.mem_cons.mp hc with rfl | hc
      · rw [choice_foldl_of_notMem _ hnodup.1, choice_apply]
      · exact ih _ hnodup.2 hc

theorem ext_choice {s s' : Settings} (h : ∀ m, s.choice m = s'.choice m) : s = s' := by
  have hk := Choice.keepGoing.inj (h .keepGoing)
  have hh := Choice.header.inj (h .header)
  have hj := Choice.jobs.inj (h .jobs)
  cases s
  cases s'
  simp_all

/-- Choices of different settings determine the settings. -/
theorem has_iff {s : Settings} {choices : List Choice} (hnodup : (choices.map Choice.setting).Nodup) :
    s.Has choices ↔ s = choices.foldl Choice.apply {} := by
  constructor
  · intro h
    refine ext_choice fun m => ?_
    by_cases hm : m ∈ choices.map Choice.setting
    · obtain ⟨c, hc, rfl⟩ := List.mem_map.mp hm
      rw [h.chosen c hc, choice_foldl_of_mem _ hnodup hc]
    · rw [h.others m hm, choice_foldl_of_notMem _ hm]
  · rintro rfl
    exact ⟨fun c hc => choice_foldl_of_mem _ hnodup hc, fun m hm => choice_foldl_of_notMem _ hm⟩

theorem Has.perm {s : Settings} {choices choices' : List Choice} (h : s.Has choices) (hperm : choices.Perm choices') :
    s.Has choices' where
  chosen c hc := h.chosen c (hperm.mem_iff.mpr hc)
  others m hm := h.others m fun hm' => hm ((hperm.map Choice.setting).mem_iff.mp hm')

/-! ## Values -/

theorem ofJson_eq_ok {α : Type} {r : Except Halt α} {a : α} : ofJson r = .ok a ↔ r = .ok a := by
  cases r <;> simp [ofJson, Except.mapError]

theorem mismatch_ne_ok {α : Type} {wanted : Wanted} {cs : List Char} {a : α} : mismatch wanted cs ≠ .ok a := by
  intro h
  obtain ⟨x, -, hx⟩ := bind_eq_ok.mp h
  cases hx

theorem readBool_eq_ok {cs rest : List Char} {b : Bool} :
    readBool cs = .ok (b, rest) ↔ ∃ g, Blanks g ∧ cs = g ++ Choice.boolChars b ++ rest := by
  constructor
  · intro h
    rw [readBool] at h
    split at h
    · rename_i cs' hcs
      obtain ⟨r, hr, heq⟩ := map_eq_ok.mp (ofJson_eq_ok.mp h)
      cases heq
      obtain ⟨g, hg, rfl⟩ := skipBlanks_eq_cons hcs
      rw [expect_eq_ok.mp hr]
      exact ⟨g, hg, by simp [Choice.boolChars]⟩
    · rename_i cs' hcs
      obtain ⟨r, hr, heq⟩ := map_eq_ok.mp (ofJson_eq_ok.mp h)
      cases heq
      obtain ⟨g, hg, rfl⟩ := skipBlanks_eq_cons hcs
      rw [expect_eq_ok.mp hr]
      exact ⟨g, hg, by simp [Choice.boolChars]⟩
    · exact absurd h mismatch_ne_ok
  · rintro ⟨g, hg, rfl⟩
    rw [readBool, List.append_assoc, skipBlanks_blanks hg]
    cases b with
    | true => simp [Choice.boolChars, skipBlanks_cons (c := 't') rfl, expect, ofJson, Except.map, Except.mapError]
    | false => simp [Choice.boolChars, skipBlanks_cons (c := 'f') rfl, expect, ofJson, Except.map, Except.mapError]

theorem written_of_readCount {cs rest : List Char} {n : Option UInt64} (h : readCount cs = .ok (n, rest)) :
    ∃ g v, Blanks g ∧ (Choice.jobs n).Written v ∧ cs = g ++ v ++ rest := by
  rw [readCount] at h
  split at h
  · cases h
  · rename_i c cs' hcs
    obtain ⟨g, hg, rfl⟩ := skipBlanks_eq_cons hcs
    split at h
    · rename_i hc
      obtain ⟨r, hr, heq⟩ := map_eq_ok.mp (ofJson_eq_ok.mp h)
      cases heq
      rw [hc, expect_eq_ok.mp hr]
      exact ⟨g, _, hg, .noJobs, by simp⟩
    · split at h
      · obtain ⟨⟨u, rest'⟩, hu, h⟩ := bind_eq_ok.mp h
        obtain ⟨k, hk, h⟩ := bind_eq_ok.mp h
        cases h
        cases u with
        | natural m =>
            cases hk
            obtain ⟨ds, hds, hm, hcs, -⟩ := number_eq_natural.mp (ofJson_eq_ok.mp hu)
            rw [hcs]
            refine ⟨g, ds, hg, .jobs ?_, by simp⟩
            rwa [UInt64.toNat_ofNat_of_lt' hm]
        | negative m => cases hk
        | double x => cases hk
      · exact absurd h mismatch_ne_ok

theorem readCount_of_written {n : Option UInt64} {g v rest : List Char} (hg : Blanks g)
    (h : (Choice.jobs n).Written v) (hrest : NumeralEnds rest) : readCount (g ++ v ++ rest) = .ok (n, rest) := by
  rw [readCount, List.append_assoc, skipBlanks_blanks hg]
  cases h with
  | noJobs =>
      rw [List.cons_append, skipBlanks_cons (by decide)]
      exact ofJson_eq_ok.mpr (map_eq_ok.mpr ⟨rest, expect_eq_ok.mpr rfl, rfl⟩)
  | @jobs k _ hds =>
      obtain ⟨d, ds, rfl⟩ := List.exists_cons_of_ne_nil hds.ne_nil
      have hd := hds.isDigit d (by simp)
      have hnumber : number (d :: ds ++ rest) = .ok (.natural k.toNat, rest) :=
        number_eq_natural.mpr ⟨d :: ds, hds, k.toNat_lt_size, rfl, hrest⟩
      have hn : d ≠ 'n' := by
        rintro rfl
        exact absurd hd (by decide)
      rw [List.cons_append, skipBlanks_cons (isBlank_of_isDigit hd)]
      simp only [hn, if_false, hd, or_true, if_true]
      refine bind_eq_ok.mpr ⟨(.natural k.toNat, rest), ofJson_eq_ok.mpr hnumber, ?_⟩
      refine bind_eq_ok.mpr ⟨k, ?_, rfl⟩
      rw [countOfNumber, UInt64.ofNat_toNat]

/-- A setting is read from its value as it is written. -/
theorem readSetting_of_written {c : Choice} {g v rest : List Char} (hg : Blanks g) (h : c.Written v)
    (hrest : NumeralEnds rest) (s : Settings) :
    readSetting c.setting s (g ++ v ++ rest) = .ok (c.apply s, rest) := by
  cases h with
  | keepGoing b => exact map_eq_ok.mpr ⟨(b, rest), readBool_eq_ok.mpr ⟨g, hg, rfl⟩, rfl⟩
  | header b => exact map_eq_ok.mpr ⟨(b, rest), readBool_eq_ok.mpr ⟨g, hg, rfl⟩, rfl⟩
  | noJobs => exact map_eq_ok.mpr ⟨(none, rest), readCount_of_written hg .noJobs hrest, rfl⟩
  | jobs hds => exact map_eq_ok.mpr ⟨(some _, rest), readCount_of_written hg (.jobs hds) hrest, rfl⟩

theorem written_of_readSetting {m : Setting} {s s' : Settings} {cs rest : List Char}
    (h : readSetting m s cs = .ok (s', rest)) :
    ∃ (c : Choice) (g v : List Char), c.setting = m ∧ s' = c.apply s ∧ Blanks g ∧ c.Written v ∧ cs = g ++ v ++ rest := by
  cases m with
  | keepGoing =>
      obtain ⟨⟨b, rest'⟩, hb, heq⟩ := map_eq_ok.mp h
      cases heq
      obtain ⟨g, hg, hcs⟩ := readBool_eq_ok.mp hb
      exact ⟨.keepGoing b, g, _, rfl, rfl, hg, .keepGoing b, hcs⟩
  | header =>
      obtain ⟨⟨b, rest'⟩, hb, heq⟩ := map_eq_ok.mp h
      cases heq
      obtain ⟨g, hg, hcs⟩ := readBool_eq_ok.mp hb
      exact ⟨.header b, g, _, rfl, rfl, hg, .header b, hcs⟩
  | jobs =>
      obtain ⟨⟨n, rest'⟩, hn, heq⟩ := map_eq_ok.mp h
      cases heq
      obtain ⟨g, v, hg, hv, hcs⟩ := written_of_readCount hn
      exact ⟨.jobs n, g, v, rfl, rfl, hg, hv, hcs⟩

theorem head_of_written {c : Choice} {v : List Char} (h : c.Written v) :
    ∃ d v', v = d :: v' ∧ isBlank d = false ∧ d ≠ ']' := by
  have hbool : ∀ b, ∃ d v', Choice.boolChars b = d :: v' ∧ isBlank d = false ∧ d ≠ ']' := by
    intro b
    cases b with
    | true => exact ⟨'t', _, rfl, rfl, by decide⟩
    | false => exact ⟨'f', _, rfl, rfl, by decide⟩
  cases h with
  | keepGoing b => exact hbool b
  | header b => exact hbool b
  | noJobs => exact ⟨'n', _, rfl, rfl, by decide⟩
  | jobs hds =>
      obtain ⟨d, ds, rfl⟩ := List.exists_cons_of_ne_nil hds.ne_nil
      have hd := hds.isDigit d (by simp)
      refine ⟨d, ds, rfl, isBlank_of_isDigit hd, ?_⟩
      rintro rfl
      exact absurd hd (by decide)

/-! ## Arrays -/

theorem nextElement_eq_done {first : Bool} {cs rest : List Char} :
    nextElement first cs = .ok (.done rest) ↔ ∃ g, Blanks g ∧ cs = g ++ ']' :: rest := by
  constructor
  · intro h
    rw [nextElement] at h
    split at h
    · cases h
    · rename_i c cs' hcs
      obtain ⟨g, hg, rfl⟩ := skipBlanks_eq_cons hcs
      split at h
      · rename_i hc
        cases h
        exact ⟨g, hg, by rw [hc]⟩
      · split at h
        · cases h
        · split at h
          · split at h
            · cases h
            · split at h <;> cases h
          · cases h
  · rintro ⟨g, hg, rfl⟩
    rw [nextElement, skipBlanks_blanks hg, skipBlanks_cons (by decide)]
    exact if_pos rfl

theorem lead_of_nextElement {first : Bool} {cs rest : List Char} (h : nextElement first cs = .ok (.more rest)) :
    ∃ lead, Lead first lead ∧ cs = lead ++ rest := by
  rw [nextElement] at h
  split at h
  · cases h
  · rename_i c cs' hcs
    obtain ⟨g, hg, rfl⟩ := skipBlanks_eq_cons hcs
    split at h
    · cases h
    · split at h
      · rename_i hfirst
        cases h
        rw [hfirst]
        exact ⟨g, .first hg, rfl⟩
      · rename_i hfirst
        split at h
        · rename_i hc
          split at h
          · cases h
          · rename_i d cs'' hcs'
            obtain ⟨g', hg', rfl⟩ := skipBlanks_eq_cons hcs'
            split at h
            · cases h
            · cases h
              rw [hc, Bool.eq_false_of_not_eq_true hfirst]
              exact ⟨g ++ ',' :: g', .next hg hg', by simp⟩
        · cases h

theorem nextElement_of_lead {first : Bool} {lead cs : List Char} {d : Char} (h : Lead first lead)
    (hd : isBlank d = false) (hd' : d ≠ ']') : nextElement first (lead ++ d :: cs) = .ok (.more (d :: cs)) := by
  cases h with
  | first hg =>
      rw [nextElement, skipBlanks_blanks hg, skipBlanks_cons hd]
      simp [hd']
  | next hg hg' =>
      rw [nextElement, List.append_assoc, skipBlanks_blanks hg, List.cons_append, skipBlanks_cons (by decide)]
      simp [skipBlanks_blanks hg', skipBlanks_cons hd, hd']

/-- Reading an array takes its elements in order as the values of the first settings. -/
theorem readElements_of_items {ms : List Setting} {first : Bool} {choices : List Choice} {body : List Char}
    (h : Items Choice.Written first choices body) (hms : choices.map Choice.setting <+: ms) (s : Settings)
    (rest : List Char) :
    readElements ms first s (body ++ ']' :: rest) = .ok (choices.foldl Choice.apply s, rest) := by
  induction h generalizing ms s with
  | nil hg =>
      cases ms with
      | nil =>
          refine map_eq_ok.mpr ⟨rest, ofJson_eq_ok.mpr (expect_eq_ok.mpr ?_), rfl⟩
          rw [skipBlanks_blanks hg, skipBlanks_cons (by decide)]
          rfl
      | cons m ms => exact bind_eq_ok.mpr ⟨.done rest, nextElement_eq_done.mpr ⟨_, hg, rfl⟩, rfl⟩
  | @cons first lead c v choices body hlead hv hitems ih =>
      cases ms with
      | nil => simp at hms
      | cons m ms =>
          obtain ⟨hm, hms⟩ := List.cons_prefix_cons.mp hms
          obtain ⟨d, v', rfl, hd, hd'⟩ := head_of_written hv
          have hends : NumeralEnds (body ++ ']' :: rest) := hitems.numeralEnds (numeralEnds_cons (by decide) _)
          have hread := readSetting_of_written blanks_nil hv hends s
          rw [hm, List.nil_append] at hread
          rw [List.append_assoc, List.append_assoc]
          refine bind_eq_ok.mpr ⟨.more _, nextElement_of_lead hlead hd hd', ?_⟩
          exact bind_eq_ok.mpr ⟨_, hread, ih hms (c.apply s)⟩

theorem items_of_readElements {ms : List Setting} {first : Bool} {s s' : Settings} {cs rest : List Char}
    (h : readElements ms first s cs = .ok (s', rest)) :
    ∃ choices body, Items Choice.Written first choices body ∧ choices.map Choice.setting <+: ms ∧
      s' = choices.foldl Choice.apply s ∧ cs = body ++ ']' :: rest := by
  induction ms generalizing first s cs with
  | nil =>
      obtain ⟨r, hr, heq⟩ := map_eq_ok.mp h
      cases heq
      have hcs := expect_eq_ok.mp (ofJson_eq_ok.mp hr)
      obtain ⟨g, hg, rfl⟩ := skipBlanks_eq_cons hcs
      exact ⟨[], g, .nil hg, List.nil_prefix, rfl, rfl⟩
  | cons m ms ih =>
      obtain ⟨next, hnext, hgo⟩ := bind_eq_ok.mp h
      cases next with
      | done rest' =>
          cases hgo
          obtain ⟨g, hg, rfl⟩ := nextElement_eq_done.mp hnext
          exact ⟨[], g, .nil hg, List.nil_prefix, rfl, rfl⟩
      | more cs' =>
          obtain ⟨⟨s₁, rest₁⟩, hread, htail⟩ := bind_eq_ok.mp hgo
          obtain ⟨lead, hlead, rfl⟩ := lead_of_nextElement hnext
          obtain ⟨c, g, v, rfl, rfl, hg, hv, rfl⟩ := written_of_readSetting hread
          obtain ⟨choices, body, hitems, hms, rfl, rfl⟩ := ih htail
          refine ⟨c :: choices, _, .cons (hlead.blanks hg) hv hitems, ?_, rfl, by simp⟩
          exact List.cons_prefix_cons.mpr ⟨rfl, hms⟩

/-! ## Objects -/

theorem nextMember_eq_done {first : Bool} {cs rest : List Char} :
    nextMember first cs = .ok (.done rest) ↔ ∃ g, Blanks g ∧ cs = g ++ '\x7d' :: rest := by
  constructor
  · intro h
    rw [nextMember] at h
    split at h
    · cases h
    · rename_i c cs' hcs
      obtain ⟨g, hg, rfl⟩ := skipBlanks_eq_cons hcs
      split at h
      · rename_i hc
        cases h
        exact ⟨g, hg, by rw [hc]⟩
      · split at h
        · split at h <;> cases h
        · split at h
          · obtain ⟨r, -, heq⟩ := map_eq_ok.mp h
            cases heq
          · cases h
  · rintro ⟨g, hg, rfl⟩
    rw [nextMember, skipBlanks_blanks hg, skipBlanks_cons (by decide)]
    exact if_pos rfl

theorem nextMember_eq_more {first : Bool} {cs rest : List Char} :
    nextMember first cs = .ok (.more rest) ↔ ∃ lead, Lead first lead ∧ cs = lead ++ '"' :: rest := by
  constructor
  · intro h
    rw [nextMember] at h
    split at h
    · cases h
    · rename_i c cs' hcs
      obtain ⟨g, hg, rfl⟩ := skipBlanks_eq_cons hcs
      split at h
      · cases h
      · split at h
        · rename_i hfirst
          split at h
          · rename_i hc
            cases h
            rw [hc, hfirst]
            exact ⟨g, .first hg, rfl⟩
          · cases h
        · rename_i hfirst
          split at h
          · rename_i hc
            obtain ⟨r, hr, heq⟩ := map_eq_ok.mp h
            cases heq
            have hcs' := expect_eq_ok.mp (ofJson_eq_ok.mp hr)
            obtain ⟨g', hg', rfl⟩ := skipBlanks_eq_cons hcs'
            rw [hc, Bool.eq_false_of_not_eq_true hfirst]
            exact ⟨g ++ ',' :: g', .next hg hg', by simp⟩
          · cases h
  · rintro ⟨lead, hlead, rfl⟩
    cases hlead with
    | first hg =>
        rw [nextMember, skipBlanks_blanks hg, skipBlanks_cons (by decide)]
        simp
    | next hg hg' =>
        rw [nextMember, List.append_assoc, skipBlanks_blanks hg, List.cons_append, skipBlanks_cons (by decide)]
        refine map_eq_ok.mpr ⟨rest, ofJson_eq_ok.mpr (expect_eq_ok.mpr ?_), rfl⟩
        rw [skipBlanks_blanks hg', skipBlanks_cons (by decide)]
        rfl

theorem readMembers_done (unset : List Setting) (first : Bool) (s : Settings) (rest : List Char) :
    readMembers unset first s ('\x7d' :: rest) = .ok (s, rest) := by
  rw [readMembers]
  exact bind_eq_ok.mpr ⟨.done rest, nextMember_eq_done.mpr ⟨[], blanks_nil, rfl⟩, rfl⟩

theorem readMembers_blanks {g : List Char} (hg : Blanks g) (unset : List Setting) (first : Bool) (s : Settings)
    (cs : List Char) : readMembers unset first s (g ++ cs) = readMembers unset first s cs := by
  have hnext : nextMember first (g ++ cs) = nextMember first cs := by
    rw [nextMember, nextMember, skipBlanks_blanks hg]
  rw [readMembers, hnext, ← readMembers]

/-- What a name leads to. -/
theorem readMembers_name {unset : List Setting} {first : Bool} {lead name t : List Char} (hlead : Lead first lead)
    (hname : Quoted name t) (s : Settings) (rest : List Char) :
    readMembers unset first s (lead ++ '"' :: t ++ '"' :: rest) =
      match Setting.ofName? (String.ofList name) with
      | none => .error (.unknownMember (String.ofList name))
      | some m =>
        if m ∈ unset then do
          let rest ← ofJson (expect [':'] (skipBlanks rest))
          let (s, rest) ← readSetting m s rest
          readMembers (unset.erase m) false s rest
        else .error (.repeatedMember m) := by
  have hmore : nextMember first (lead ++ '"' :: t ++ '"' :: rest) = .ok (.more (t ++ '"' :: rest)) :=
    nextMember_eq_more.mpr ⟨lead, hlead, by simp⟩
  have hstring : ofJson (stringTail (t ++ '"' :: rest)) = .ok (name, rest) := ofJson_eq_ok.mpr (hname.stringTail rest)
  rw [readMembers]
  simp only [hmore, hstring, bind, Except.bind]
  cases Setting.ofName? (String.ofList name) with
  | none => rfl
  | some m => by_cases hm : m ∈ unset <;> simp [hm]

/-- A member gives its setting a value. -/
theorem readMembers_member {unset : List Setting} {first : Bool} {c : Choice} {lead cs rest : List Char}
    (hlead : Lead first lead) (h : c.Member cs) (hunset : c.setting ∈ unset) (hrest : NumeralEnds rest) (s : Settings) :
    readMembers unset first s (lead ++ cs ++ rest) =
      readMembers (unset.erase c.setting) false (c.apply s) rest := by
  cases h with
  | @member t g g' v hname hg hg' hv =>
      have hcolon : ofJson (expect [':'] (skipBlanks (g ++ ':' :: (g' ++ v ++ rest)))) = .ok (g' ++ v ++ rest) := by
        rw [skipBlanks_blanks hg, skipBlanks_cons (by decide)]
        exact ofJson_eq_ok.mpr (expect_eq_ok.mpr rfl)
      have hcs : lead ++ ('"' :: t ++ '"' :: g ++ ':' :: g' ++ v) ++ rest =
          lead ++ '"' :: t ++ '"' :: (g ++ ':' :: (g' ++ v ++ rest)) := by
        simp
      rw [hcs, readMembers_name hlead hname, String.ofList_toList, ofName?_eq_some.mpr (name_setting c)]
      simp only [hunset, if_true, hcolon, readSetting_of_written hg' hv hrest, bind, Except.bind]

/-- Members of an object give their settings values, whatever comes after them. -/
theorem readMembers_items {unset : List Setting} {first : Bool} {choices : List Choice} {body rest : List Char}
    (h : Items Choice.Member first choices body) (hnodup : (choices.map Choice.setting).Nodup)
    (hunset : ∀ m ∈ choices.map Choice.setting, m ∈ unset) (hrest : NumeralEnds rest) (s : Settings) :
    readMembers unset first s (body ++ rest) =
      readMembers (unset.diff (choices.map Choice.setting)) (first && choices.isEmpty)
        (choices.foldl Choice.apply s) rest := by
  induction h generalizing unset s with
  | nil hg =>
      rw [readMembers_blanks hg]
      simp
  | @cons first lead c cs choices body hlead hc hitems ih =>
      rw [List.map_cons, List.nodup_cons] at hnodup
      have hmem : c.setting ∈ unset := hunset c.setting (by simp)
      have hothers : ∀ m ∈ choices.map Choice.setting, m ∈ unset.erase c.setting := by
        intro m hm
        refine (List.mem_erase_of_ne ?_).mpr (hunset m (by simp [hm]))
        rintro rfl
        exact hnodup.1 hm
      rw [List.append_assoc, readMembers_member hlead hc hmem (hitems.numeralEnds hrest), ih hnodup.2 hothers]
      simp

theorem items_of_readMembers {unset : List Setting} {first : Bool} {s s' : Settings} {cs rest : List Char}
    (hunset : unset.Nodup) (h : readMembers unset first s cs = .ok (s', rest)) :
    ∃ choices body, Items Choice.Member first choices body ∧ (choices.map Choice.setting).Nodup ∧
      (∀ m ∈ choices.map Choice.setting, m ∈ unset) ∧ s' = choices.foldl Choice.apply s ∧
        cs = body ++ '\x7d' :: rest := by
  induction hlength : unset.length using Nat.strongRecOn generalizing unset first s cs with
  | ind n ih =>
      have hstep := h
      rw [readMembers] at hstep
      obtain ⟨next, hnext, hgo⟩ := bind_eq_ok.mp hstep
      cases next with
      | done rest' =>
          cases hgo
          obtain ⟨g, hg, rfl⟩ := nextMember_eq_done.mp hnext
          exact ⟨[], g, .nil hg, by simp, by simp, rfl, rfl⟩
      | more cs' =>
          obtain ⟨lead, hlead, rfl⟩ := nextMember_eq_more.mp hnext
          obtain ⟨⟨name, rest₁⟩, hname, -⟩ := bind_eq_ok.mp hgo
          obtain ⟨t, ht, rfl⟩ := quoted_of_stringTail (ofJson_eq_ok.mp hname)
          rw [← List.cons_append, ← List.append_assoc, readMembers_name hlead ht] at h
          split at h
          · cases h
          · rename_i m hm
            split at h
            · rename_i hmem
              obtain ⟨rest₂, hcolon, hvalue⟩ := bind_eq_ok.mp h
              obtain ⟨⟨s₁, rest₃⟩, hread, htail⟩ := bind_eq_ok.mp hvalue
              obtain ⟨g, hg, rfl⟩ := skipBlanks_eq_cons (expect_eq_ok.mp (ofJson_eq_ok.mp hcolon))
              obtain ⟨c, g', v, rfl, rfl, hg', hv, rfl⟩ := written_of_readSetting hread
              have hlt : (unset.erase c.setting).length < n := by
                rw [List.length_erase_of_mem hmem, hlength]
                exact Nat.sub_one_lt_of_lt (hlength ▸ List.length_pos_of_mem hmem)
              obtain ⟨choices, body, hitems, hnodup, hothers, rfl, rfl⟩ :=
                ih _ hlt (hunset.erase c.setting) htail rfl
              have hquoted : Quoted c.name.toList t := by
                rw [← name_setting, ofName?_eq_some.mp hm, String.toList_ofList]
                exact ht
              refine ⟨c :: choices, _, .cons hlead (.member hquoted hg hg' hv) hitems, ?_, ?_, rfl, by simp⟩
              · refine List.nodup_cons.mpr ⟨fun hc => ?_, hnodup⟩
                exact (hunset.mem_erase_iff.mp (hothers _ hc)).1 rfl
              · refine List.forall_mem_cons.mpr ⟨hmem, fun m hm => ?_⟩
                exact List.mem_of_mem_erase (hothers m hm)
            · cases h

/-! ## The whole text -/

theorem nodup_of_document {choices : List Choice} {cs : List Char} (h : Document choices cs) :
    (choices.map Choice.setting).Nodup := by
  cases h with
  | object _ _ hnodup _ => exact nodup_names.mp hnodup
  | array _ _ hprefix _ => exact List.Nodup.sublist hprefix.sublist (by decide)

theorem mem_all (m : Setting) : m ∈ Setting.all := by
  cases m <;> decide

theorem readValue_array {g : List Char} (hg : Blanks g) (rest : List Char) :
    readValue (g ++ '[' :: rest) = readElements Setting.all true {} rest := by
  simp only [readValue, skipBlanks_blanks hg, skipBlanks_cons (c := '[') rfl]

theorem readValue_object {g : List Char} (hg : Blanks g) (rest : List Char) :
    readValue (g ++ '\x7b' :: rest) = readMembers Setting.all true {} rest := by
  simp only [readValue, skipBlanks_blanks hg, skipBlanks_cons (c := '\x7b') rfl]

theorem readValue_eq_ok {cs rest : List Char} {s : Settings} (h : readValue cs = .ok (s, rest)) :
    ∃ g cs', Blanks g ∧ ((cs = g ++ '[' :: cs' ∧ readElements Setting.all true {} cs' = .ok (s, rest)) ∨
      (cs = g ++ '\x7b' :: cs' ∧ readMembers Setting.all true {} cs' = .ok (s, rest))) := by
  rw [readValue] at h
  split at h
  · rename_i cs' hcs
    obtain ⟨g, hg, rfl⟩ := skipBlanks_eq_cons hcs
    exact ⟨g, cs', hg, .inl ⟨rfl, h⟩⟩
  · rename_i cs' hcs
    obtain ⟨g, hg, rfl⟩ := skipBlanks_eq_cons hcs
    exact ⟨g, cs', hg, .inr ⟨rfl, h⟩⟩
  · exact absurd h mismatch_ne_ok

theorem ofText_of_document {choices : List Choice} {text : String} (h : Document choices text.toList) :
    ofText text = .ok (choices.foldl Choice.apply {}) := by
  have hvalue : ∃ g, Blanks g ∧ readValue text.toList = .ok (choices.foldl Choice.apply {}, g) := by
    generalize text.toList = cs at h
    cases h with
    | @object g body g' hg hitems hnodup hg' =>
        refine ⟨g', hg', ?_⟩
        rw [List.append_assoc, List.cons_append, readValue_object hg,
          readMembers_items hitems (nodup_names.mp hnodup) (fun m _ => mem_all m) (numeralEnds_cons (by decide) _),
          readMembers_done]
    | @array g body g' hg hitems hprefix hg' =>
        refine ⟨g', hg', ?_⟩
        rw [List.append_assoc, List.cons_append, readValue_array hg]
        exact readElements_of_items hitems hprefix {} g'
  obtain ⟨g, hg, hvalue⟩ := hvalue
  refine bind_eq_ok.mpr ⟨_, hvalue, ?_⟩
  exact if_pos (skipBlanks_eq_nil.mpr hg)

theorem document_of_ofText {text : String} {s : Settings} (h : ofText text = .ok s) :
    ∃ choices, Document choices text.toList ∧ s = choices.foldl Choice.apply {} := by
  obtain ⟨⟨s', rest⟩, hvalue, hrest⟩ := bind_eq_ok.mp h
  by_cases hblank : skipBlanks rest = []
  · rw [show s' = s by simpa [hblank] using hrest] at hvalue
    have hg' := skipBlanks_eq_nil.mp hblank
    obtain ⟨g, cs, hg, ⟨htext, hread⟩ | ⟨htext, hread⟩⟩ := readValue_eq_ok hvalue
    · obtain ⟨choices, body, hitems, hprefix, hs, rfl⟩ := items_of_readElements hread
      refine ⟨choices, ?_, hs⟩
      rw [htext, ← List.cons_append, ← List.append_assoc]
      exact .array hg hitems hprefix hg'
    · obtain ⟨choices, body, hitems, hnodup, -, hs, rfl⟩ := items_of_readMembers (by decide) hread
      refine ⟨choices, ?_, hs⟩
      rw [htext, ← List.cons_append, ← List.append_assoc]
      exact .object hg hitems (nodup_names.mpr hnodup) hg'
  · simp [hblank] at hrest

theorem ofText_eq_error {text : String} {e : SettingsFault} (h : readValue text.toList = .error e) :
    ofText text = .error e := by
  rw [ofText, h]
  rfl

/-- Reading an object comes to each of its names, whatever follows. -/
theorem readValue_member {choices : List Choice} {g body lead : List Char} (hg : Blanks g)
    (h : Items Choice.Member true choices body) (hnodup : (choices.map Choice.setting).Nodup)
    (hlead : Lead choices.isEmpty lead) (rest : List Char) :
    readValue (g ++ '\x7b' :: body ++ lead ++ '"' :: rest) =
      readMembers (Setting.all.diff (choices.map Choice.setting)) choices.isEmpty (choices.foldl Choice.apply {})
        (lead ++ '"' :: rest) := by
  have hends : NumeralEnds (lead ++ '"' :: rest) := hlead.numeralEnds fun _ => numeralEnds_cons (by decide) _
  rw [List.append_assoc, List.append_assoc, List.cons_append, readValue_object hg,
    readMembers_items h hnodup (fun m _ => mem_all m) hends, Bool.true_and]

/-! ## Main result -/

/-- Settings are read from exactly the documents that give them. The order of members and the blanks between the parts
make no difference, and a member that is unknown or given twice is refused. -/
theorem ofText_eq_ok_iff_document (text : String) (s : Settings) :
    (ofText text = .ok s ↔ ∃ choices, Document choices text.toList ∧ s.Has choices) ∧
    (∀ text' choices choices', Document choices text.toList → Document choices' text'.toList →
      choices.Perm choices' → ofText text = ofText text') ∧
    ∀ choices g body lead name t rest, Blanks g → Items Choice.Member true choices body →
      (choices.map Choice.name).Nodup → Lead choices.isEmpty lead → Quoted name t →
      text.toList = g ++ '\x7b' :: body ++ lead ++ '"' :: t ++ '"' :: rest →
        (String.ofList name ∉ ["continue_on_error", "header", "jobs"] →
          ofText text = .error (.unknownMember (String.ofList name))) ∧
        ∀ c ∈ choices, c.name = String.ofList name → ofText text = .error (.repeatedMember c.setting) := by
  refine ⟨⟨fun h => ?_, ?_⟩, ?_, ?_⟩
  · obtain ⟨choices, hdoc, hs⟩ := document_of_ofText h
    exact ⟨choices, hdoc, (has_iff (nodup_of_document hdoc)).mpr hs⟩
  · rintro ⟨choices, hdoc, hs⟩
    rw [ofText_of_document hdoc, (has_iff (nodup_of_document hdoc)).mp hs]
  · intro text' choices choices' h h' hperm
    have hhas := (has_iff (nodup_of_document h)).mpr rfl
    rw [ofText_of_document h, ofText_of_document h', (has_iff (nodup_of_document h')).mp (hhas.perm hperm)]
  · intro choices g body lead name t rest hg hitems hnodup hlead hname htext
    have hvalue : readValue text.toList =
        readMembers (Setting.all.diff (choices.map Choice.setting)) choices.isEmpty (choices.foldl Choice.apply {})
          (lead ++ '"' :: t ++ '"' :: rest) := by
      rw [htext, List.append_assoc, List.cons_append, readValue_member hg hitems (nodup_names.mp hnodup) hlead,
        List.append_assoc, List.cons_append]
    rw [readMembers_name hlead hname] at hvalue
    refine ⟨fun hunknown => ofText_eq_error ?_, fun c hc hgiven => ofText_eq_error ?_⟩
    · have hnone : Setting.ofName? (String.ofList name) = none := by
        refine Option.eq_none_iff_forall_ne_some.mpr fun m hm => hunknown ?_
        rw [← ofName?_eq_some.mp hm]
        cases m <;> simp [Setting.name]
      rw [hvalue, hnone]
    · have hsome : Setting.ofName? (String.ofList name) = some c.setting := by
        rw [ofName?_eq_some, ← hgiven, name_setting]
      have hset : c.setting ∉ Setting.all.diff (choices.map Choice.setting) := by
        rw [List.Nodup.mem_sdiff_iff (by decide)]
        exact fun h => h.2 (List.mem_map_of_mem hc)
      rw [hvalue, hsome]
      exact if_neg hset

theorem ofText_eq_ok_iff_document_escaped :
    let text := "\n\x7b \"jobs\" : 18446744073709551615,\"he\\u0061der\":false \x7d\t"
    let text' := "\x7b\"header\":false,\"jobs\":18446744073709551615\x7d"
    let twice := "\x7b\"jobs\":null,\"jobs\":\"\\ud800"
    ofText text = .ok ⟨true, false, some 18446744073709551615⟩ ∧ ofText text = ofText text' ∧
      ofText twice = .error (.repeatedMember .jobs) := by
  intro text text' twice
  have hjobs : Quoted "jobs".toList "jobs".toList := quoted_plain (by simp)
  have hheader : Quoted "header".toList "header".toList := quoted_plain (by simp)
  have ha : Written 'a' ['\\', 'u', '0', '0', '6', '1'] :=
    .digits (n := 0x61) ⟨rfl, Hex.number?_eq_some.mp (by decide)⟩ (by decide)
  have hescaped : Quoted "header".toList "he\\u0061der".toList :=
    .cons (.plain (by decide) (by decide) (by decide)) <| .cons (.plain (by decide) (by decide) (by decide)) <|
      .cons ha (quoted_plain (s := ['d', 'e', 'r']) (by simp))
  have hspace : Blanks [' '] := by simp [Blanks]
  have hcomma : Lead false [','] := .next blanks_nil blanks_nil
  have hmost : (Choice.jobs (some 18446744073709551615)).Written "18446744073709551615".toList :=
    .jobs (whole_toDigits 18446744073709551615)
  have hpadded := Choice.Member.member (c := .jobs _) hjobs hspace hspace hmost
  have hclose := Choice.Member.member (c := .jobs _) hjobs blanks_nil blanks_nil hmost
  have hoff := Choice.Member.member (c := .header _) hescaped blanks_nil blanks_nil (.header false)
  have hoff' := Choice.Member.member (c := .header _) hheader blanks_nil blanks_nil (.header false)
  have hnull := Choice.Member.member (c := .jobs _) hjobs blanks_nil blanks_nil .noJobs
  have hdoc : Document [.jobs (some 18446744073709551615), .header false] text.toList := by
    have hitems := Items.cons (.first hspace) hpadded (.cons hcomma hoff (.nil hspace))
    have hfeed : Blanks ['\n'] := by simp [Blanks]
    have htab : Blanks ['\t'] := by simp [Blanks]
    simpa [text, Choice.boolChars] using Document.object hfeed hitems (by decide) htab
  have hdoc' : Document [.header false, .jobs (some 18446744073709551615)] text'.toList := by
    have hitems := Items.cons (.first blanks_nil) hoff' (.cons hcomma hclose (.nil blanks_nil))
    simpa [text', Choice.boolChars] using Document.object blanks_nil hitems (by decide) blanks_nil
  have htwice := (ofText_eq_ok_iff_document twice {}).2.2 [.jobs none] [] _ [','] _ _ ":\"\\ud800".toList blanks_nil
    (.cons (.first blanks_nil) hnull (.nil blanks_nil)) (by decide) hcomma hjobs (by simp [twice])
  refine ⟨?_, ?_, ?_⟩
  · exact (ofText_eq_ok_iff_document text _).1.mpr ⟨_, hdoc, (has_iff (by decide)).mpr rfl⟩
  · exact (ofText_eq_ok_iff_document text {}).2.1 text' _ _ hdoc hdoc' (List.Perm.swap _ _ _)
  · exact htwice.2 (.jobs none) (by simp) (by simp [Choice.name])

end Settings

end HexAsm
