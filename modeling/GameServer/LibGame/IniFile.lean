import GameServer.Lib.KeyedSet
import Mathlib.Data.List.DropRight
import Mathlib.Data.List.Lex
import Mathlib.Data.List.TakeWhile
import Mathlib.Logic.Function.Basic

/-!
# Files of settings

`CIniFileA`: sections with keys, both found by their names without regard to case and to the blanks around them, and the texts they are
loaded from and saved to. A pointer to a section or a key is the object; what is changed through it is put back. `Settings` is what
such a file is for, a value for a section and a key, and `run_settings` says that every run of calls gets the answers of `Settings`.
-/

namespace GameServer.LibGame.Ini

open GameServer.Lib

abbrev Name := List UInt8

/-- `tolower` of the "C" locale. -/
def tolower (c : UInt8) : UInt8 := if 65 ≤ c ∧ c ≤ 90 then c + 32 else c

/-- What `strcasecmp` compares of the name. -/
def folded (name : Name) : List Nat := (name.takeWhile (· ≠ 0)).map fun c => (tolower c).toNat

def blank (c : UInt8) : Bool := c = 32 || c = 9

/-- The blanks that may stand behind the bracket of a section. -/
def white (c : UInt8) : Bool := c = 32 || c = 9 || c = 13 || c = 10

def returns (c : UInt8) : Bool := c = 10 || c = 13

def rTrim (chars : UInt8 → Bool) (str : List UInt8) : List UInt8 := str.rdropWhile chars

def lTrim (str : List UInt8) : List UInt8 := str.dropWhile blank

def trim (str : List UInt8) : List UInt8 := lTrim (rTrim blank str)

structure IniKey where
  m_sKeyName : Name
  m_sValue : List UInt8

abbrev KeyIndex := KeyedSet IniKey fun k => folded k.m_sKeyName

structure IniSection where
  m_sSectionName : Name
  m_keys : KeyIndex

abbrev SecIndex := KeyedSet IniSection fun s => folded s.m_sSectionName

namespace IniSection

variable (s : IniSection)

def getKey (sKeyName : Name) : Option IniKey := s.m_keys.find (folded (trim sKeyName))

def addKey (sKeyName : Name) : IniKey × IniSection :=
  match s.getKey sKeyName with
  | some pKey => (pKey, s)
  | none =>
    let pKey : IniKey := ⟨trim sKeyName, []⟩
    (pKey, { s with m_keys := s.m_keys.put pKey })

/-- `SetValue` of a key of the section. -/
def setValue (pKey : IniKey) (sValue : List UInt8) : IniSection := { s with m_keys := s.m_keys.put { pKey with m_sValue := sValue } }

def setKeyValue (sKey : Name) (sValue : List UInt8) : IniSection :=
  let (pKey, s) := s.addKey sKey
  s.setValue pKey sValue

def removeKey (sKey : Name) : IniSection :=
  match s.getKey sKey with
  | some _ => { s with m_keys := s.m_keys.erase (folded (trim sKey)) }
  | none => s

def removeAllKeys : IniSection := { s with m_keys := .empty }

/-- `SetKeyName` of a key of the section. -/
def setKeyName (pKey : IniKey) (sKeyName : Name) : Bool × IniSection :=
  let sKeyName := trim sKeyName
  match s.m_keys.find (folded sKeyName) with
  | none => (true, { s with m_keys := (s.m_keys.erase (folded pKey.m_sKeyName)).put { pKey with m_sKeyName := sKeyName } })
  | some _ => (false, s)

end IniSection

structure IniFile where
  m_sections : SecIndex

namespace IniFile

def empty : IniFile := ⟨.empty⟩

def removeAllSections : IniFile := empty

variable (f : IniFile)

def getSection (sSection : Name) : Option IniSection := f.m_sections.find (folded (trim sSection))

/-- A section of the file that was changed through its pointer. -/
def store (pSection : IniSection) : IniFile := ⟨f.m_sections.put pSection⟩

def addSection (sSection : Name) : IniSection × IniFile :=
  match f.getSection sSection with
  | some pSection => (pSection, f)
  | none =>
    let pSection : IniSection := ⟨trim sSection, .empty⟩
    (pSection, f.store pSection)

def getKeyValue (sSection sKey : Name) : List UInt8 :=
  match f.getSection sSection with
  | some pSec =>
    match pSec.getKey sKey with
    | some pKey => pKey.m_sValue
    | none => []
  | none => []

def setKeyValue (sSection sKey : Name) (sValue : List UInt8) : IniFile :=
  let (pSec, f) := f.addSection sSection
  f.store (pSec.setKeyValue sKey sValue)

def removeSection (sSection : Name) : IniFile :=
  match f.getSection sSection with
  | some _ => ⟨f.m_sections.erase (folded (trim sSection))⟩
  | none => f

/-- `SetSectionName` of a section of the file. -/
def setSectionName (pSection : IniSection) (sSectionName : Name) : Bool × IniFile :=
  let sSectionName := trim sSectionName
  match f.m_sections.find (folded sSectionName) with
  | none =>
    (true, ⟨(f.m_sections.erase (folded pSection.m_sSectionName)).put { pSection with m_sSectionName := sSectionName }⟩)
  | some _ => (false, f)

def renameSection (sSectionName sNewSectionName : Name) : Bool × IniFile :=
  match f.getSection sSectionName with
  | some pSec => f.setSectionName pSec sNewSectionName
  | none => (false, f)

def renameKey (sSectionName sKeyName sNewKeyName : Name) : Bool × IniFile :=
  match f.getSection sSectionName with
  | some pSec =>
    match pSec.getKey sKeyName with
    | some pKey =>
      let (bRval, pSec) := pSec.setKeyName pKey sNewKeyName
      (bRval, f.store pSec)
    | none => (false, f)
  | none => (false, f)

/-- `AddKey` of a section that is there. -/
def addKey (sSection sKey : Name) : IniFile :=
  match f.getSection sSection with
  | some pSec => f.store (pSec.addKey sKey).2
  | none => f

/-- `RemoveKey` of a section that is there. -/
def removeKey (sSection sKey : Name) : IniFile :=
  match f.getSection sSection with
  | some pSec => f.store (pSec.removeKey sKey)
  | none => f

/-- `RemoveAllKeys` of a section that is there. -/
def removeAllKeys (sSection : Name) : IniFile :=
  match f.getSection sSection with
  | some pSec => f.store pSec.removeAllKeys
  | none => f

end IniFile

/-- The lines that `std::getline` reads. -/
def getlines : Nat → List UInt8 → List (List UInt8)
  | 0, _ => []
  | n + 1, input =>
    if input = [] then [] else input.takeWhile (· ≠ 10) :: getlines n (input.dropWhile (· ≠ 10)).tail

inductive LineType where
  | section_
  | key
  | comment
  | other
  deriving DecidableEq, Repr

def lineType (sRead : List UInt8) : LineType :=
  if sRead.head? = some 91 ∧ (rTrim white sRead).getLast? = some 93 then .section_
  else if 61 ∈ sRead ∧ 0 < sRead.idxOf 61 then .key
  else if sRead.head? = some 35 then .comment
  else .other

/-- A line without the blanks before it and the returns behind it. -/
def readLine (line : List UInt8) : List UInt8 := rTrim returns (lTrim line)

/-- What a line says: a section, or a key with its value. -/
inductive Entry where
  | section_ (sSection : Name)
  | key (sKey : Name) (sValue : List UInt8)

def entry (sRead : List UInt8) : Option Entry :=
  if sRead = [] then none
  else
    match lineType sRead with
    | .section_ => some (.section_ ((sRead.drop 1).take (sRead.length - 2)))
    | .key =>
      let iFind := sRead.idxOf 61
      some (.key (sRead.take iFind) (sRead.drop (iFind + 1)))
    | .comment => none
    | .other => none

namespace IniFile

/-- A line of `Load`. The section whose keys are read is known by its name. -/
def loadEntry (f : IniFile) (pSection : Option Name) : Option Entry → IniFile × Option Name
  | none => (f, pSection)
  | some (.section_ sSection) =>
    let (pSec, f) := f.addSection sSection
    (f, some pSec.m_sSectionName)
  | some (.key sKey sValue) =>
    match pSection.bind fun name => f.m_sections.find (folded name) with
    | some pSec => (f.store (pSec.setKeyValue sKey sValue), pSection)
    | none => (f, pSection)

def loadEntries (f : IniFile) (pSection : Option Name) (lines : List (List UInt8)) : IniFile × Option Name :=
  lines.foldl (fun st line => loadEntry st.1 st.2 (entry (readLine line))) (f, pSection)

def load (f : IniFile) (input : List UInt8) (bMerge : Bool) : IniFile :=
  let f := if bMerge then f else removeAllSections
  (loadEntries f none (getlines input.length input)).1

end IniFile

section Calls

/-- The calls of the interface by name. -/
inductive Call where
  | addSection (sSection : Name)
  | getKeyValue (sSection sKey : Name)
  | setKeyValue (sSection sKey : Name) (sValue : List UInt8)
  | addKey (sSection sKey : Name)
  | removeSection (sSection : Name)
  | removeAllSections
  | removeKey (sSection sKey : Name)
  | removeAllKeys (sSection : Name)
  | renameSection (sSectionName sNewSectionName : Name)
  | renameKey (sSectionName sKeyName sNewKeyName : Name)
  | load (input : List UInt8) (bMerge : Bool)

inductive Answer where
  | void
  | value (sValue : List UInt8)
  | done (bRval : Bool)
  deriving DecidableEq, Repr

def IniFile.call (f : IniFile) : Call → Answer × IniFile
  | .addSection s => (.void, (f.addSection s).2)
  | .getKeyValue s k => (.value (f.getKeyValue s k), f)
  | .setKeyValue s k v => (.void, f.setKeyValue s k v)
  | .addKey s k => (.void, f.addKey s k)
  | .removeSection s => (.void, f.removeSection s)
  | .removeAllSections => (.void, IniFile.removeAllSections)
  | .removeKey s k => (.void, f.removeKey s k)
  | .removeAllKeys s => (.void, f.removeAllKeys s)
  | .renameSection s s' => ((f.renameSection s s').map .done id)
  | .renameKey s k k' => ((f.renameKey s k k').map .done id)
  | .load input bMerge => (.void, f.load input bMerge)

/-- The answers to the calls, one after the other, and the file after them. -/
def IniFile.run (f : IniFile) : List Call → List Answer × IniFile
  | [] => ([], f)
  | c :: calls => ((f.call c).1 :: (((f.call c).2).run calls).1, (((f.call c).2).run calls).2)

end Calls

section Settings

/-- The values of the keys of the sections that are there, by what is compared of their names. -/
abbrev Settings := List Nat → Option (List Nat → Option (List UInt8))

/-- What is compared of a name as it is passed. -/
def ident (name : Name) : List Nat := folded (trim name)

namespace Settings

variable (d : Settings)

def none : Settings := fun _ => Option.none

/-- The section with its keys changed, if it is there. -/
def change (s : List Nat) (g : (List Nat → Option (List UInt8)) → List Nat → Option (List UInt8)) : Settings :=
  Function.update d s ((d s).map g)

def addSection (s : List Nat) : Settings := Function.update d s (some ((d s).getD fun _ => Option.none))

def set (s k : List Nat) (v : List UInt8) : Settings := (d.addSection s).change s fun keys => Function.update keys k (some v)

def loadEntry (pSection : Option (List Nat)) : Option Entry → Settings × Option (List Nat)
  | .none => (d, pSection)
  | some (.section_ sSection) => (d.addSection (ident sSection), some (ident sSection))
  | some (.key sKey sValue) =>
    match pSection with
    | some s => (d.change s fun keys => Function.update keys (ident sKey) (some sValue), pSection)
    | .none => (d, pSection)

def loadEntries (pSection : Option (List Nat)) (lines : List (List UInt8)) : Settings × Option (List Nat) :=
  lines.foldl (fun st line => loadEntry st.1 st.2 (entry (readLine line))) (d, pSection)

/-- `p` under the name `q`, if there is `p` and no `q`. -/
def rename {V : Type} (m : List Nat → Option V) (p q : List Nat) : Bool × (List Nat → Option V) :=
  if (m p).isSome ∧ (m q).isNone then (true, Function.update (Function.update m p Option.none) q (m p)) else (false, m)

def call : Call → Answer × Settings
  | .addSection s => (.void, d.addSection (ident s))
  | .getKeyValue s k => (.value (((d (ident s)).bind fun keys => keys (ident k)).getD []), d)
  | .setKeyValue s k v => (.void, d.set (ident s) (ident k) v)
  | .addKey s k => (.void, d.change (ident s) fun keys => Function.update keys (ident k) (some ((keys (ident k)).getD [])))
  | .removeSection s => (.void, Function.update d (ident s) Option.none)
  | .removeAllSections => (.void, none)
  | .removeKey s k => (.void, d.change (ident s) fun keys => Function.update keys (ident k) Option.none)
  | .removeAllKeys s => (.void, d.change (ident s) fun _ _ => Option.none)
  | .renameSection s s' => (rename d (ident s) (ident s')).map .done id
  | .renameKey s k k' =>
    match d (ident s) with
    | some keys => (.done (rename keys (ident k) (ident k')).1, d.change (ident s) fun keys => (rename keys (ident k) (ident k')).2)
    | Option.none => (.done false, d)
  | .load input bMerge => (.void, (loadEntries (if bMerge then d else none) Option.none (getlines input.length input)).1)

def run (d : Settings) : List Call → List Answer × Settings
  | [] => ([], d)
  | c :: calls => ((d.call c).1 :: (run (d.call c).2 calls).1, (run (d.call c).2 calls).2)

end Settings

end Settings

section Refinement

variable {f : IniFile} {sec : IniSection} {d : Settings} {s k : List Nat} {name : Name} {v : List UInt8} {pKey : IniKey}

def IniSection.values (sec : IniSection) : List Nat → Option (List UInt8) := fun k => (sec.m_keys.find k).map IniKey.m_sValue

/-- The settings of a file. -/
def IniFile.settings (f : IniFile) : Settings := fun s => (f.m_sections.find s).map IniSection.values

theorem values_put (sec : IniSection) (pKey : IniKey) : IniSection.values { sec with m_keys := sec.m_keys.put pKey } =
    Function.update sec.values (folded pKey.m_sKeyName) (some pKey.m_sValue) := by
  funext k
  rw [IniSection.values, KeyedSet.find_put, Function.update_apply]
  split_ifs <;> rfl

theorem values_erase (sec : IniSection) (k : List Nat) : IniSection.values { sec with m_keys := sec.m_keys.erase k } =
    Function.update sec.values k none := by
  funext k'
  rw [IniSection.values, KeyedSet.find_erase, Function.update_apply]
  split_ifs <;> rfl

theorem getKey_name (found : sec.getKey name = some pKey) : folded pKey.m_sKeyName = ident name :=
  KeyedSet.key_of_find (s := sec.m_keys) found

theorem values_getKey (found : sec.getKey name = some pKey) : sec.values (ident name) = some pKey.m_sValue :=
  congrArg (Option.map IniKey.m_sValue) found

theorem values_none (absent : sec.getKey name = none) : sec.values (ident name) = none := congrArg (Option.map IniKey.m_sValue) absent

theorem addKey_spec (sec : IniSection) (name : Name) :
    (sec.addKey name).2.values = Function.update sec.values (ident name) (some ((sec.values (ident name)).getD [])) ∧
      (sec.addKey name).2.m_sSectionName = sec.m_sSectionName := by
  rw [IniSection.addKey]
  cases found : sec.getKey name with
  | some pKey =>
    have here := values_getKey found
    rw [here]
    exact ⟨(Function.update_eq_self_iff.2 here.symm).symm, rfl⟩
  | none =>
    rw [values_none found]
    exact ⟨values_put sec ⟨trim name, []⟩, rfl⟩

theorem addKey_name (sec : IniSection) (name : Name) : folded (sec.addKey name).1.m_sKeyName = ident name := by
  rw [IniSection.addKey]
  cases found : sec.getKey name with
  | some pKey => exact getKey_name found
  | none => rfl

theorem setKeyValue_spec (sec : IniSection) (name : Name) (v : List UInt8) :
    (sec.setKeyValue name v).values = Function.update sec.values (ident name) (some v) ∧
      (sec.setKeyValue name v).m_sSectionName = sec.m_sSectionName := by
  obtain ⟨added, same⟩ := addKey_spec sec name
  have set := values_put (sec.addKey name).2 { (sec.addKey name).1 with m_sValue := v }
  rw [addKey_name, added] at set
  exact ⟨set.trans (Function.update_idem _ _ _), same⟩

theorem removeKey_spec (sec : IniSection) (name : Name) : (sec.removeKey name).values = Function.update sec.values (ident name) none ∧
    (sec.removeKey name).m_sSectionName = sec.m_sSectionName := by
  rw [IniSection.removeKey]
  cases found : sec.getKey name with
  | some pKey => exact ⟨values_erase _ _, rfl⟩
  | none => exact ⟨(Function.update_eq_self_iff.2 (values_none found).symm).symm, rfl⟩

theorem setKeyName_spec (found : sec.getKey name = some pKey) (name' : Name) :
    (sec.setKeyName pKey name').1 = (Settings.rename sec.values (ident name) (ident name')).1 ∧
      (sec.setKeyName pKey name').2.values = (Settings.rename sec.values (ident name) (ident name')).2 ∧
        (sec.setKeyName pKey name').2.m_sSectionName = sec.m_sSectionName := by
  have here := values_getKey found
  rw [IniSection.setKeyName, Settings.rename]
  cases there : sec.m_keys.find (folded (trim name')) with
  | some other =>
    have value : sec.values (ident name') = some other.m_sValue := congrArg (Option.map IniKey.m_sValue) there
    rw [value, if_neg (fun both => by cases both.2)]
    exact ⟨rfl, rfl, rfl⟩
  | none =>
    have value : sec.values (ident name') = none := congrArg (Option.map IniKey.m_sValue) there
    rw [value, if_pos ⟨by rw [here]; rfl, rfl⟩]
    refine ⟨rfl, ?_, rfl⟩
    have moved := values_put { sec with m_keys := sec.m_keys.erase (folded pKey.m_sKeyName) } { pKey with m_sKeyName := trim name' }
    dsimp only at moved ⊢
    rw [moved, values_erase, getKey_name found, here]
    rfl

theorem settings_store (f : IniFile) (sec : IniSection) :
    (f.store sec).settings = Function.update f.settings (folded sec.m_sSectionName) (some sec.values) := by
  funext s
  rw [IniFile.settings, IniFile.store, KeyedSet.find_put, Function.update_apply]
  split_ifs <;> rfl

theorem settings_erase (f : IniFile) (s : List Nat) : IniFile.settings ⟨f.m_sections.erase s⟩ = Function.update f.settings s none := by
  funext s'
  rw [IniFile.settings, KeyedSet.find_erase, Function.update_apply]
  split_ifs <;> rfl

theorem settings_find (found : f.m_sections.find s = some sec) : f.settings s = some sec.values ∧ folded sec.m_sSectionName = s :=
  ⟨congrArg (Option.map IniSection.values) found, KeyedSet.key_of_find (s := f.m_sections) found⟩

theorem settings_absent (absent : f.m_sections.find s = none) : f.settings s = none := congrArg (Option.map IniSection.values) absent

/-- A section that is changed through its pointer. -/
theorem settings_change (found : f.m_sections.find s = some sec) {sec' : IniSection} (same : sec'.m_sSectionName = sec.m_sSectionName)
    {g : (List Nat → Option (List UInt8)) → List Nat → Option (List UInt8)} (changed : sec'.values = g sec.values) :
    (f.store sec').settings = f.settings.change s g := by
  obtain ⟨here, named⟩ := settings_find found
  rw [settings_store, same, named, Settings.change, here, changed]
  rfl

theorem change_absent (absent : d s = none) (g : (List Nat → Option (List UInt8)) → List Nat → Option (List UInt8)) : d.change s g = d := by
  rw [Settings.change, absent]
  exact Function.update_eq_self_iff.2 absent.symm

theorem addSection_spec (f : IniFile) (name : Name) : (f.addSection name).2.settings = f.settings.addSection (ident name) ∧
    (f.addSection name).2.m_sections.find (ident name) = some (f.addSection name).1 := by
  rw [IniFile.addSection, Settings.addSection]
  cases found : f.getSection name with
  | some pSec =>
    obtain ⟨here, -⟩ := settings_find found
    rw [show f.settings (ident name) = some pSec.values from here]
    exact ⟨(Function.update_eq_self_iff.2 here.symm).symm, found⟩
  | none =>
    have absent : f.settings (ident name) = none := settings_absent found
    refine ⟨?_, ?_⟩
    · rw [absent]
      exact settings_store f _
    · exact KeyedSet.find_put.trans (if_pos rfl)

theorem setKeyValue_settings (f : IniFile) (s k : Name) (v : List UInt8) :
    (f.setKeyValue s k v).settings = f.settings.set (ident s) (ident k) v := by
  obtain ⟨added, found⟩ := addSection_spec f s
  obtain ⟨values, name⟩ := setKeyValue_spec (f.addSection s).1 k v
  rw [IniFile.setKeyValue, Settings.set, ← added]
  exact settings_change found name values

/-- The name of the section whose keys are read, in the file and in its settings. -/
theorem loadEntry_settings (f : IniFile) (pSection : Option Name) (e : Option Entry) :
    ((f.loadEntry pSection e).1.settings, (f.loadEntry pSection e).2.map folded) = f.settings.loadEntry (pSection.map folded) e := by
  cases e with
  | none => rfl
  | some e =>
    cases e with
    | section_ sSection =>
      obtain ⟨added, found⟩ := addSection_spec f sSection
      have named : folded (f.addSection sSection).1.m_sSectionName = ident sSection := (settings_find found).2
      show ((f.addSection sSection).2.settings, some (folded (f.addSection sSection).1.m_sSectionName)) = _
      rw [added, named]
      rfl
    | key sKey sValue =>
      cases pSection with
      | none => rfl
      | some name =>
        show Prod.mk (IniFile.settings _) _ = (f.settings.change (folded name) _, some (folded name))
        rw [IniFile.loadEntry, Option.bind_some]
        cases found : f.m_sections.find (folded name) with
        | none =>
          rw [change_absent (settings_absent found)]
          rfl
        | some pSec =>
          obtain ⟨values, same⟩ := setKeyValue_spec pSec sKey sValue
          dsimp only
          rw [settings_change found same (g := fun keys => Function.update keys (ident sKey) (some sValue)) values]
          rfl

theorem loadEntries_settings (lines : List (List UInt8)) (f : IniFile) (pSection : Option Name) :
    ((f.loadEntries pSection lines).1.settings, (f.loadEntries pSection lines).2.map folded) =
      f.settings.loadEntries (pSection.map folded) lines := by
  induction lines generalizing f pSection with
  | nil => rfl
  | cons line lines ih =>
    have here := loadEntry_settings f pSection (entry (readLine line))
    rw [Settings.loadEntries, List.foldl_cons, ← here]
    exact ih _ _

theorem load_settings (f : IniFile) (input : List UInt8) (bMerge : Bool) : (f.load input bMerge).settings =
    (Settings.loadEntries (if bMerge then f.settings else Settings.none) none (getlines input.length input)).1 := by
  have lines := loadEntries_settings (getlines input.length input) (if bMerge then f else .removeAllSections) none
  have start : (if bMerge then f else .removeAllSections : IniFile).settings = if bMerge then f.settings else Settings.none := by
    cases bMerge <;> rfl
  rw [start] at lines
  exact congrArg Prod.fst lines

theorem renameSection_settings (f : IniFile) (s s' : Name) :
    ((f.renameSection s s').1, (f.renameSection s s').2.settings) = Settings.rename f.settings (ident s) (ident s') := by
  rw [IniFile.renameSection, Settings.rename]
  cases found : f.getSection s with
  | none =>
    have absent : f.settings (ident s) = none := settings_absent found
    rw [absent, if_neg (fun both => by cases both.1)]
  | some pSec =>
    obtain ⟨here, named⟩ := settings_find found
    have here : f.settings (ident s) = some pSec.values := here
    dsimp only [IniFile.setSectionName]
    cases there : f.m_sections.find (folded (trim s')) with
    | some other =>
      have value : f.settings (ident s') = some other.values := (settings_find there).1
      rw [value, if_neg (fun both => by cases both.2)]
    | none =>
      have value : f.settings (ident s') = none := settings_absent there
      have moved := settings_store ⟨f.m_sections.erase (folded pSec.m_sSectionName)⟩ { pSec with m_sSectionName := trim s' }
      rw [value, if_pos ⟨by rw [here]; rfl, rfl⟩, here]
      refine congrArg (Prod.mk true) (moved.trans ?_)
      rw [settings_erase, named]
      rfl

theorem getKeyValue_settings (f : IniFile) (s k : Name) :
    f.getKeyValue s k = ((f.settings (ident s)).bind fun keys => keys (ident k)).getD [] := by
  rw [IniFile.getKeyValue]
  cases found : f.getSection s with
  | none =>
    have absent : f.settings (ident s) = none := settings_absent found
    rw [absent]
    rfl
  | some pSec =>
    have here : f.settings (ident s) = some pSec.values := (settings_find found).1
    rw [here, Option.bind_some]
    dsimp only
    cases key : pSec.getKey k with
    | none =>
      rw [values_none key]
      rfl
    | some pKey =>
      rw [values_getKey key]
      rfl

theorem removeSection_settings (f : IniFile) (s : Name) : (f.removeSection s).settings = Function.update f.settings (ident s) none := by
  rw [IniFile.removeSection]
  cases found : f.getSection s with
  | none => exact (Function.update_eq_self_iff.2 (settings_absent found).symm).symm
  | some pSec => exact settings_erase f _

/-- What changes a section that is there changes its keys in the settings. -/
theorem settings_section {op : IniSection → IniSection} {g : (List Nat → Option (List UInt8)) → List Nat → Option (List UInt8)}
    (spec : ∀ sec : IniSection, (op sec).values = g sec.values ∧ (op sec).m_sSectionName = sec.m_sSectionName) (f : IniFile) (s : Name) :
    IniFile.settings (match f.getSection s with | some pSec => f.store (op pSec) | none => f) = f.settings.change (ident s) g := by
  cases found : f.getSection s with
  | none => exact (change_absent (settings_absent found) _).symm
  | some pSec =>
    obtain ⟨values, same⟩ := spec pSec
    exact settings_change found same values

theorem addKey_settings (f : IniFile) (s k : Name) : (f.addKey s k).settings =
    f.settings.change (ident s) fun keys => Function.update keys (ident k) (some ((keys (ident k)).getD [])) :=
  settings_section (fun sec => addKey_spec sec k) f s

theorem removeKey_settings (f : IniFile) (s k : Name) :
    (f.removeKey s k).settings = f.settings.change (ident s) fun keys => Function.update keys (ident k) none :=
  settings_section (fun sec => removeKey_spec sec k) f s

theorem removeAllKeys_settings (f : IniFile) (s : Name) :
    (f.removeAllKeys s).settings = f.settings.change (ident s) fun _ _ => none := by
  have spec : ∀ sec : IniSection, sec.removeAllKeys.values = (fun _ => none) ∧ sec.removeAllKeys.m_sSectionName = sec.m_sSectionName :=
    fun _ => ⟨rfl, rfl⟩
  exact settings_section spec f s

theorem renameKey_settings (f : IniFile) (s k k' : Name) :
    (Answer.done (f.renameKey s k k').1, (f.renameKey s k k').2.settings) = f.settings.call (.renameKey s k k') := by
  rw [IniFile.renameKey, Settings.call]
  cases found : f.getSection s with
  | none =>
    have absent : f.settings (ident s) = none := settings_absent found
    rw [absent]
  | some pSec =>
    have here : f.settings (ident s) = some pSec.values := (settings_find found).1
    rw [here]
    dsimp only
    cases key : pSec.getKey k with
    | none =>
      have value : Settings.rename pSec.values (ident k) (ident k') = (false, pSec.values) := by
        rw [Settings.rename, values_none key, if_neg (fun both => by cases both.1)]
      have same : f.settings.change (ident s) (fun keys => (Settings.rename keys (ident k) (ident k')).2) = f.settings := by
        rw [Settings.change, here, Option.map_some, value]
        exact Function.update_eq_self_iff.2 here.symm
      rw [same, value]
    | some pKey =>
      obtain ⟨done, values, name⟩ := setKeyName_spec key k'
      dsimp only
      rw [settings_change found name (g := fun keys => (Settings.rename keys (ident k) (ident k')).2) values, done]
      rfl

/-- Each call does to the settings what it is for. -/
theorem call_settings (f : IniFile) (c : Call) : ((f.call c).1, (f.call c).2.settings) = f.settings.call c := by
  cases c with
  | addSection s => exact congrArg (Prod.mk _) (addSection_spec f s).1
  | getKeyValue s k => exact congrArg (fun v => (Answer.value v, f.settings)) (getKeyValue_settings f s k)
  | setKeyValue s k v => exact congrArg (Prod.mk _) (setKeyValue_settings f s k v)
  | addKey s k => exact congrArg (Prod.mk _) (addKey_settings f s k)
  | removeSection s => exact congrArg (Prod.mk _) (removeSection_settings f s)
  | removeAllSections => rfl
  | removeKey s k => exact congrArg (Prod.mk _) (removeKey_settings f s k)
  | removeAllKeys s => exact congrArg (Prod.mk _) (removeAllKeys_settings f s)
  | renameSection s s' => exact congrArg (Prod.map Answer.done id) (renameSection_settings f s s')
  | renameKey s k k' => exact renameKey_settings f s k k'
  | load input bMerge => exact congrArg (Prod.mk _) (load_settings f input bMerge)

/-- **Every run of calls gets the answers of the settings**, and leaves a file of the settings that are left. -/
theorem run_settings (f : IniFile) (calls : List Call) : ((f.run calls).1, (f.run calls).2.settings) = f.settings.run calls := by
  induction calls generalizing f with
  | nil => rfl
  | cons c calls ih =>
    have here := call_settings f c
    rw [IniFile.run, Settings.run, ← here, ← ih]

end Refinement

end GameServer.LibGame.Ini
