import Playbook.Proofs.Disk.Writing
import Playbook.Proofs.Json.Parts
import Playbook.Settings

/-!
# Saved settings are loaded

Whatever texts the settings hold, they are read back from the JSON text that they are printed as.
Saving puts this text into a file of its own, in place of what that file held before, so what is
loaded afterwards are the saved settings, and no other file is touched (`load_of_save`).  The file
is the one that its path leads to: if there is a link, the file behind it is written and read.

A setting that is not set leaves no member behind in the file.  This matters because loading never
fails: a file that could not be understood would silently count as no settings at all.
-/

namespace Playbook.Settings

/-! ### As JSON -/

/-- A JSON object tells the settings: each of the two is a member exactly if it is set, and there is
no other member. -/
structure Tells (members : List (Option String × Json)) (s : Settings) : Prop where
  commandsDir : MemberIs members "commands_dir" (s.commandsDir.map .text)
  extension : MemberIs members "extension" (s.extension.map .text)
  keys : ∀ m ∈ members, ∃ name ∈ fields, m.1 = some name

theorem exists_tells_toJson (s : Settings) :
    ∃ members, s.toJson = .object members ∧ Tells members s := by
  obtain ⟨commandsDir, extension⟩ := s
  refine ⟨_, rfl, ?_, ?_, ?_⟩ <;> cases commandsDir <;> cases extension <;> simp [MemberIs, fields]

theorem optional?_map_text (setting : Option String) :
    Json.optional? Json.string? (setting.map .text) = some setting := by
  cases setting <;> rfl

/-- Settings are understood from an object that tells them. -/
theorem Tells.ofJson?_eq {members : List (Option String × Json)} {s : Settings}
    (h : Tells members s) : ofJson? (.object members) = some s := by
  have hkeys : members.all (·.1.isSome) = true := by
    rw [List.all_eq_true]
    intro m hm
    obtain ⟨name, -, hname⟩ := h.keys m hm
    rw [hname]
    rfl
  have hfields : fieldsOfMembers? fields members =
      some [s.commandsDir.map .text, s.extension.map .text] :=
    fieldsOfMembers?_eq_some_iff.2 (.cons h.commandsDir (.cons h.extension .nil))
  simp [ofJson?, Json.fields?, hkeys, hfields, optional?_map_text]

theorem isPlain_toJson (s : Settings) : s.toJson.IsPlain := by
  refine .record fun m hm => ?_
  rcases List.mem_append.1 hm with hm | hm
  · obtain ⟨dir, -, rfl⟩ := Option.map_eq_some_iff.1 (Option.mem_toList.1 hm)
    exact .text dir
  · obtain ⟨ext, -, rfl⟩ := Option.map_eq_some_iff.1 (Option.mem_toList.1 hm)
    exact .text ext

/-! ### On a disk -/

section

variable {s : Settings} {d d' : Disk}

theorem save_eq_ok {home : Option Path} (h : s.save d home = (d', .ok ())) :
    ∃ base made, home = some base ∧ d.makeDirectories (directory base) = (made, .ok ()) ∧
      made.writeText (file base) s.toJson.pretty = (d', .ok ()) := by
  unfold save at h
  split at h
  · cases h
  · rename_i base
    split at h
    · cases h
    · rename_i made hmade
      refine ⟨base, made, rfl, hmade, ?_⟩
      dsimp only at h
      obtain ⟨hdisk, hdone⟩ := Prod.mk.inj h
      rw [← hdisk, ← Outcome.mapError_eq_ok_iff.1 hdone]

theorem isName_file : Path.IsName "config.json" := by
  simp [Path.IsName]

/-- Settings were saved below a home directory: what has become of the disk, and of the file at some
place. -/
structure Saved (s : Settings) (d : Disk) (home : Path) (kept : Place) (d' : Disk) : Prop where
  tells : ∃ text members, d'.readText (file home) = .ok text ∧
    Json.read text = some (.object members) ∧ Tells members s
  leads : d'.follow (file home) = .ok kept
  walk : d.LinkFree → kept = (file home).walk d.here
  names : ∀ first other, d'.AreOne first other ↔ d.AreOne first other
  /-- Elsewhere nothing has changed, but that directories may have been made where there was
  nothing. -/
  others : ∀ place, ¬d.AreOne kept place → d'.get? place = d.get? place ∨
    (d.get? place = none ∧ d'.get? place = some .directory)

/-- Saved settings are what is loaded, and the file that they are in tells them and nothing else.
Every place that is no name of this file holds what it held before. -/
theorem load_of_save {home : Option Path} (h : s.save d home = (d', .ok ())) :
    load d' home = s ∧ ∃ base kept, home = some base ∧ Saved s d base kept d' := by
  obtain ⟨base, made, rfl, hmade, hwritten⟩ := save_eq_ok h
  obtain ⟨kept, hstored⟩ := Disk.stored_of_writeText isName_file hmade hwritten
  have htext : d'.readText (file base) = .ok s.toJson.pretty := hstored.text
  obtain ⟨members, hmembers, htells⟩ := s.exists_tells_toJson
  have hread : Json.read s.toJson.pretty = some (.object members) := by
    rw [Json.read_pretty s.isPlain_toJson, hmembers]
  have hunderstood : ofText? s.toJson.pretty = some s := by
    rw [ofText?, hread, Option.bind_some, htells.ofJson?_eq]
  refine ⟨by simp [load, htext, hunderstood], base, kept, rfl, ?_⟩
  exact
    { tells := ⟨_, members, htext, hread, htells⟩
      leads := hstored.leads
      walk := hstored.file_eq_walk
      names := hstored.names
      others := by
        intro place hplace
        rcases hstored.others place hplace with hsame | ⟨hnone, hdirectory, -⟩
        · exact .inl hsame
        · exact .inr ⟨hnone, hdirectory⟩ }

/-- A disk with a link to the settings, which were torn off while they were written. -/
def tornSettings : Disk where
  entries :=
    [([["h"]], .directory), ([["h", ".stim"]], .directory),
      ([["h", ".stim", "config.json"]], .link ⟨"../dotfile"⟩),
      ([["h", "dotfile"], ["backup"]],
        .file "\x7b\"extension\": \"flow\", \"commands_dir\": \"/srv/commands/of/all".toUTF8),
      ([["h", ".stim", "notes"]], .file "n".toUTF8)]
  here := ["h"]

/-- What is left of the old file does not show through.  The link and the file beside it stay. -/
theorem load_of_save_tornSettings :
    load tornSettings (some ⟨"../h/"⟩) = unset ∧
      ∃ d', save ⟨some "a\"\\\n\u0001𝄞", none⟩ tornSettings (some ⟨"../h/"⟩) = (d', .ok ()) ∧
        load d' (some ⟨"../h/"⟩) = ⟨some "a\"\\\n\u0001𝄞", none⟩ ∧
        d'.get? ["h", ".stim", "config.json"] = some (.link ⟨"../dotfile"⟩) ∧
        d'.get? ["h", ".stim", "notes"] = some (.file "n".toUTF8) := by
  refine ⟨by decide +kernel, ?_⟩
  have hdone : (save ⟨some "a\"\\\n\u0001𝄞", none⟩ tornSettings (some ⟨"../h/"⟩)).2.toOption =
      some () := by decide +kernel
  have hleads : (save ⟨some "a\"\\\n\u0001𝄞", none⟩ tornSettings (some ⟨"../h/"⟩)).1.follow
      (file ⟨"../h/"⟩) = .ok ["h", "dotfile"] := by decide +kernel
  obtain ⟨d', hd'⟩ := Outcome.exists_state_of_toOption hdone
  rw [hd'] at hleads
  obtain ⟨hload, base, kept, hbase, hsaved⟩ := load_of_save hd'
  obtain rfl := Option.some.inj hbase
  obtain rfl := Except.ok.inj (hsaved.leads.symm.trans hleads)
  have hothers : ∀ place e, ¬tornSettings.AreOne ["h", "dotfile"] place →
      tornSettings.get? place = some e → d'.get? place = some e := by
    intro place e hplace he
    rcases hsaved.others place hplace with hsame | ⟨hnone, -⟩
    · rw [hsame, he]
    · rw [he] at hnone
      cases hnone
  exact ⟨d', hd', hload, hothers _ _ (by decide +kernel) rfl,
    hothers _ _ (by decide +kernel) rfl⟩

end

end Playbook.Settings
