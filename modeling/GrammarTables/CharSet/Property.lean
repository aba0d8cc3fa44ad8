import GrammarTables.CharSet.Basic
/-
# A table of Unicode properties

The Unicode database has hundreds of properties, and reading a regular expression takes whichever
of them its `Regex.Dialect` knows.  This module holds the sets of some of them: a short table for a
dialect that a program can be run with.  Nothing that is proved about reading depends on it.

`CharSet.ofProperty?` finds the set that an expression such as `Greek`, `gc=Zs` or `scx=Hebrew`
denotes, if the table has it.  Names are matched loosely: case, underscores, blanks, hyphens and a
leading `is` do not count.  A name without a qualifier is looked up among the binary properties,
the general categories and the scripts, in this order.

The function is `unicode_property`, with the table in place of the whole database.
-/

namespace GrammarTables

namespace Property

/-! ## 1. The tables -/

/-- The code points of ASCII. -/
def ascii : List (Nat × Nat) :=
  [(0x0, 0x7F)]

/-- Hexadecimal digits of ASCII. -/
def asciiHexDigit : List (Nat × Nat) :=
  [(0x30, 0x39), (0x41, 0x46), (0x61, 0x66)]

/-- Hexadecimal digits, full width forms included. -/
def hexDigit : List (Nat × Nat) :=
  [(0x30, 0x39), (0x41, 0x46), (0x61, 0x66), (0xFF10, 0xFF19), (0xFF21, 0xFF26),
   (0xFF41, 0xFF46)]

/-- White space. -/
def whiteSpace : List (Nat × Nat) :=
  [(0x9, 0xD), (0x20, 0x20), (0x85, 0x85), (0xA0, 0xA0), (0x1680, 0x1680), (0x2000, 0x200A),
   (0x2028, 0x2029), (0x202F, 0x202F), (0x205F, 0x205F), (0x3000, 0x3000)]

/-- Control characters. -/
def control : List (Nat × Nat) :=
  [(0x0, 0x1F), (0x7F, 0x9F)]

/-- Letters that stand for numbers. -/
def letterNumber : List (Nat × Nat) :=
  [(0x16EE, 0x16F0), (0x2160, 0x2182), (0x2185, 0x2188), (0x3007, 0x3007), (0x3021, 0x3029),
   (0x3038, 0x303A), (0xA6E6, 0xA6EF), (0x10140, 0x10174), (0x10341, 0x10341),
   (0x1034A, 0x1034A), (0x103D1, 0x103D5), (0x12400, 0x1246E)]

/-- Punctuation that connects words. -/
def connectorPunctuation : List (Nat × Nat) :=
  [(0x5F, 0x5F), (0x203F, 0x2040), (0x2054, 0x2054), (0xFE33, 0xFE34), (0xFE4D, 0xFE4F),
   (0xFF3F, 0xFF3F)]

/-- Dashes. -/
def dashPunctuation : List (Nat × Nat) :=
  [(0x2D, 0x2D), (0x58A, 0x58A), (0x5BE, 0x5BE), (0x1400, 0x1400), (0x1806, 0x1806),
   (0x2010, 0x2015), (0x2E17, 0x2E17), (0x2E1A, 0x2E1A), (0x2E3A, 0x2E3B), (0x2E40, 0x2E40),
   (0x2E5D, 0x2E5D), (0x301C, 0x301C), (0x3030, 0x3030), (0x30A0, 0x30A0), (0xFE31, 0xFE32),
   (0xFE58, 0xFE58), (0xFE63, 0xFE63), (0xFF0D, 0xFF0D), (0x10D6E, 0x10D6E), (0x10EAD, 0x10EAD)]

/-- Currency signs. -/
def currencySymbol : List (Nat × Nat) :=
  [(0x24, 0x24), (0xA2, 0xA5), (0x58F, 0x58F), (0x60B, 0x60B), (0x7FE, 0x7FF), (0x9F2, 0x9F3),
   (0x9FB, 0x9FB), (0xAF1, 0xAF1), (0xBF9, 0xBF9), (0xE3F, 0xE3F), (0x17DB, 0x17DB),
   (0x20A0, 0x20C0), (0xA838, 0xA838), (0xFDFC, 0xFDFC), (0xFE69, 0xFE69), (0xFF04, 0xFF04),
   (0xFFE0, 0xFFE1), (0xFFE5, 0xFFE6), (0x11FDD, 0x11FE0), (0x1E2FF, 0x1E2FF),
   (0x1ECB0, 0x1ECB0)]

/-- Space characters. -/
def spaceSeparator : List (Nat × Nat) :=
  [(0x20, 0x20), (0xA0, 0xA0), (0x1680, 0x1680), (0x2000, 0x200A), (0x202F, 0x202F),
   (0x205F, 0x205F), (0x3000, 0x3000)]

/-- The Armenian script. -/
def armenian : List (Nat × Nat) :=
  [(0x531, 0x556), (0x559, 0x58A), (0x58D, 0x58F), (0xFB13, 0xFB17)]

/-- The Cyrillic script. -/
def cyrillic : List (Nat × Nat) :=
  [(0x400, 0x484), (0x487, 0x52F), (0x1C80, 0x1C8A), (0x1D2B, 0x1D2B), (0x1D78, 0x1D78),
   (0x2DE0, 0x2DFF), (0xA640, 0xA69F), (0xFE2E, 0xFE2F), (0x1E030, 0x1E06D), (0x1E08F, 0x1E08F)]

/-- The Greek script. -/
def greek : List (Nat × Nat) :=
  [(0x370, 0x373), (0x375, 0x377), (0x37A, 0x37D), (0x37F, 0x37F), (0x384, 0x384),
   (0x386, 0x386), (0x388, 0x38A), (0x38C, 0x38C), (0x38E, 0x3A1), (0x3A3, 0x3E1),
   (0x3F0, 0x3FF), (0x1D26, 0x1D2A), (0x1D5D, 0x1D61), (0x1D66, 0x1D6A), (0x1DBF, 0x1DBF),
   (0x1F00, 0x1F15), (0x1F18, 0x1F1D), (0x1F20, 0x1F45), (0x1F48, 0x1F4D), (0x1F50, 0x1F57),
   (0x1F59, 0x1F59), (0x1F5B, 0x1F5B), (0x1F5D, 0x1F5D), (0x1F5F, 0x1F7D), (0x1F80, 0x1FB4),
   (0x1FB6, 0x1FC4), (0x1FC6, 0x1FD3), (0x1FD6, 0x1FDB), (0x1FDD, 0x1FEF), (0x1FF2, 0x1FF4),
   (0x1FF6, 0x1FFE), (0x2126, 0x2126), (0xAB65, 0xAB65), (0x10140, 0x1018E), (0x101A0, 0x101A0),
   (0x1D200, 0x1D245)]

/-- The Hiragana script. -/
def hiragana : List (Nat × Nat) :=
  [(0x3041, 0x3096), (0x309D, 0x309F), (0x1B001, 0x1B11F), (0x1B132, 0x1B132),
   (0x1B150, 0x1B152), (0x1F200, 0x1F200)]

/-- The Thai script. -/
def thai : List (Nat × Nat) :=
  [(0xE01, 0xE3A), (0xE40, 0xE5B)]

/-- Characters used with the Hebrew script. -/
def hebrewExtended : List (Nat × Nat) :=
  [(0x307, 0x308), (0x591, 0x5C7), (0x5D0, 0x5EA), (0x5EF, 0x5F4), (0xFB1D, 0xFB36),
   (0xFB38, 0xFB3C), (0xFB3E, 0xFB3E), (0xFB40, 0xFB41), (0xFB43, 0xFB44), (0xFB46, 0xFB4F)]

/-! ## 2. Names -/

/-- The code points of a property together with its names in loose form. -/
structure Entry where
  names : List String
  ranges : List (Nat × Nat)

/-- Properties that hold or do not hold of a character. -/
def binaries : List Entry :=
  [⟨["asciihexdigit", "ahex"], asciiHexDigit⟩,
   ⟨["hexdigit", "hex"], hexDigit⟩,
   ⟨["whitespace", "wspace", "space"], whiteSpace⟩]

/-- General categories, and the two sets that are looked up beside them. -/
def categories : List Entry :=
  [⟨["any"], [(0, maxCodePoint)]⟩,
   ⟨["ascii"], ascii⟩,
   ⟨["cc", "control", "cntrl"], control⟩,
   ⟨["nl", "letternumber"], letterNumber⟩,
   ⟨["pc", "connectorpunctuation"], connectorPunctuation⟩,
   ⟨["pd", "dashpunctuation"], dashPunctuation⟩,
   ⟨["sc", "currencysymbol"], currencySymbol⟩,
   ⟨["zs", "spaceseparator"], spaceSeparator⟩]

/-- Scripts. -/
def scripts : List Entry :=
  [⟨["armenian", "armn"], armenian⟩,
   ⟨["cyrillic", "cyrl"], cyrillic⟩,
   ⟨["greek", "grek"], greek⟩,
   ⟨["hiragana", "hira"], hiragana⟩,
   ⟨["thai"], thai⟩]

/-- Scripts with the characters they share. -/
def scriptExtensions : List Entry :=
  [⟨["hebrew", "hebr"], hebrewExtended⟩]

/-- The name without case, separators and a leading `is`; only `isc` keeps its `is`. -/
def looseName (name : List Char) : List Char :=
  let squeeze (cs : List Char) : List Char :=
    (cs.filter fun c => !(c == ' ' || c == '_' || c == '-')).map Char.toLower
  match name with
  | a :: b :: rest =>
    if a.toLower == 'i' && b.toLower == 's' then
      let short := squeeze rest
      if short == ['c'] then ['i', 's', 'c'] else short
    else squeeze name
  | _ => squeeze name

/-- The ranges of the entry that has the name. -/
def find? (entries : List Entry) (name : String) : Option (List (Nat × Nat)) :=
  (entries.find? fun e => e.names.contains name).map (·.ranges)

/-- The ranges of a property expression, `name` or `property=value`. -/
def ranges? (expression : String) : Option (List (Nat × Nat)) :=
  let cs := expression.toList
  let key := cs.takeWhile (· != '=')
  let loose := String.ofList (looseName key)
  match cs.dropWhile (· != '=') with
  | [] => find? (binaries ++ categories ++ scripts) loose
  | _ :: value =>
    let value := String.ofList (looseName value)
    if loose == "gc" || loose == "generalcategory" then find? categories value
    else if loose == "sc" || loose == "script" then find? scripts value
    else if loose == "scx" || loose == "scriptextensions" then find? scriptExtensions value
    else none

end Property

/-- The set that a property expression denotes, if the table has the property. -/
def CharSet.ofProperty? (expression : String) : Option CharSet :=
  (Property.ranges? expression).map CharSet.ofPairs

/-! ## 3. The sets of the table -/

namespace Property

/-- All of the table. -/
def entries : List Entry := (binaries ++ categories ++ scripts) ++ scriptExtensions

theorem entries_bounded :
    entries.all (fun e => e.ranges.all fun p => decide (p.2 ≤ maxCodePoint)) = true := by
  decide

theorem entries_filled :
    entries.all (fun e => e.ranges.any fun p => decide (p.1 ≤ p.2)) = true := by
  decide

theorem exists_entry_of_ranges? {expression : String} {ps : List (Nat × Nat)}
    (h : ranges? expression = some ps) : ∃ e ∈ entries, e.ranges = ps := by
  have hfind : ∀ {es : List Entry} {name : String}, (∀ e ∈ es, e ∈ entries) →
      find? es name = some ps → ∃ e ∈ entries, e.ranges = ps := by
    intro es name hsub hf
    obtain ⟨e, he, rfl⟩ := Option.map_eq_some_iff.mp hf
    exact ⟨e, hsub e (List.mem_of_find?_eq_some he), rfl⟩
  unfold ranges? at h
  simp only at h
  split at h
  · exact hfind (fun e he => List.mem_append_left _ he) h
  · split at h
    · exact hfind (fun e he => by simp [entries, he]) h
    · split at h
      · exact hfind (fun e he => by simp [entries, he]) h
      · split at h
        · exact hfind (fun e he => by simp [entries, he]) h
        · cases h

end Property

theorem CharSet.isUnicode_ofProperty {expression : String} {s : CharSet}
    (h : ofProperty? expression = some s) : s.IsUnicode := by
  obtain ⟨ps, hps, rfl⟩ := Option.map_eq_some_iff.mp h
  obtain ⟨e, he, rfl⟩ := Property.exists_entry_of_ranges? hps
  refine isUnicode_ofPairs fun p hp => ?_
  simpa using List.all_eq_true.mp (List.all_eq_true.mp Property.entries_bounded e he) p hp

theorem CharSet.exists_mem_ofProperty {expression : String} {s : CharSet}
    (h : ofProperty? expression = some s) : ∃ c, c ∈ s := by
  obtain ⟨ps, hps, rfl⟩ := Option.map_eq_some_iff.mp h
  obtain ⟨e, he, rfl⟩ := Property.exists_entry_of_ranges? hps
  obtain ⟨p, hp, hle⟩ := List.any_eq_true.mp (List.all_eq_true.mp Property.entries_filled e he)
  exact ⟨p.1, mem_ofPairs.mpr ⟨p, hp, Nat.le_refl _, by simpa using hle⟩⟩

end GrammarTables
