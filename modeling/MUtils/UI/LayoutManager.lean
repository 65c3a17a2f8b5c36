import MUtils.File.TomlUtils

/-!
# The layout manager

`LayoutData` and the functions on it, for one process. Next to `LayoutData` the process has the
flags its windows are shown by, the layouts handed to the load callback so far, and the files of the
machine. What logs is left out, and so are failures of the file system other than that nothing can
be written to an empty path.
-/

namespace MUtils

open Std (ExtTreeMap)

abbrev LayoutShowFlags := ExtTreeMap Text Bool

structure LayoutInfo where
  windowLayout : Text := []
  showFlags : LayoutShowFlags := ∅

/-- `none` is an exception; calling an empty `std::function` throws one as well. -/
abbrev fnLoadCB := LayoutInfo → Option Unit

structure WindowState where
  name : Text
  /-- The address of the flag. -/
  pVisible : Nat

structure LayoutManagerData where
  loadCB : fnLoadCB := fun _ => none
  layoutSettingsPath : Path := []
  layouts : ExtTreeMap Text LayoutInfo := ∅
  lastLayout : Text := []
  mapWindowState : ExtTreeMap Text WindowState := ∅

structure LayoutProcess (Contents : Type) where
  LayoutData : LayoutManagerData := {}
  visible : Nat → Bool
  calls : List LayoutInfo := []
  files : Path → Option Contents

structure Base64 where
  encode : Text → Text
  decode : Text → Option Text
  decode_encode : ∀ s, decode (encode s) = some s

/-- `file_appdata_path`, `file_documents_path`, `fs::temp_directory_path` and `runtree_path`. -/
structure Folders where
  appdata : Path
  documents : Path
  temp : Path
  runtree : Path

variable {Contents : Type} (toml : TomlFormat Contents) (base64 : Base64) (folders : Folders)

/-! ### Loading -/

def defaultName : Text := "Default".toList

/-- The flags in the `enables` of a layout. -/
def readEnables (enableTable : TomlTable TomlValue) : Option LayoutShowFlags :=
  enableTable.keys.foldlM (fun showFlags key => do
    let visible ← (enableTable.value key).as_boolean
    pure (showFlags.insert key visible)) ∅

/-- The body of the loop over the layouts, up to `info` and `name`. -/
def readLayout (layout : TomlValue) : Option (Text × LayoutInfo) := do
  let windows ← toml_get TomlValue.as_string (← layout.as_table) "windows".toList []
  let windowLayout ← base64.decode windows
  let name ← toml_get TomlValue.as_string (← layout.as_table) "name".toList defaultName
  let showFlags ← match toml_expect TomlValue.as_table layout "enables".toList with
    | some enableTable => readEnables enableTable
    | none => pure ∅
  pure (name, { windowLayout, showFlags })

/-- The loop over the layouts. An exception ends it, and what was read until then stays. -/
def readLayouts (p : LayoutProcess Contents) : List TomlValue → LayoutProcess Contents
  | [] => p
  | layout :: arr =>
    match readLayout base64 layout with
    | none => p
    | some (name, info) =>
      if name.isEmpty || info.windowLayout.isEmpty then readLayouts p arr
      else
        let p := { p with LayoutData.layouts := p.LayoutData.layouts.insert name info }
        if p.LayoutData.lastLayout.isEmpty && name == defaultName then
          let p := { p with calls := p.calls ++ [info] }
          match p.LayoutData.loadCB info with
          | none => p
          | some () => readLayouts { p with LayoutData.lastLayout := name } arr
        else readLayouts p arr

def readLayoutsFile (p : LayoutProcess Contents) : LayoutProcess Contents :=
  let settingsData := toml_read toml p.files p.LayoutData.layoutSettingsPath
  match toml_expect TomlValue.as_array settingsData "layout".toList with
  | some arr => readLayouts base64 p arr
  | none => p

def Folders.layoutSettingsPath (appName : Text) : Path :=
  let folder :=
    if folders.appdata.isEmpty then
      if folders.documents.isEmpty then folders.temp else folders.documents
    else folders.appdata
  folder ++ [appName, "settings".toList, "layouts.toml".toList]

def layout_manager_load_layouts_file (p : LayoutProcess Contents) (appName : Text)
    (fnLoad : fnLoadCB) (forceReset : Bool) : LayoutProcess Contents :=
  let layoutSettingsPath := folders.layoutSettingsPath appName
  let p := { p with LayoutData := { p.LayoutData with
    layouts := ∅, loadCB := fnLoad, layoutSettingsPath } }
  if forceReset || (p.files layoutSettingsPath).isNone then
    match p.files (folders.runtree ++ ["settings".toList, "layouts.toml".toList]) with
    | some contents =>
      readLayoutsFile toml base64
        { p with files := Function.update p.files layoutSettingsPath (some contents) }
    | none => p
  else readLayoutsFile toml base64 p

/-! ### Saving -/

def enablesTable (showFlags : LayoutShowFlags) : TomlTable TomlValue :=
  showFlags.foldl (fun enables key visible => enables.set key (.boolean visible)) .empty

def layoutEntry (layoutName : Text) (layout : LayoutInfo) : TomlTable TomlValue :=
  TomlTable.empty.set "name".toList (.string layoutName)
    |>.set "windows".toList (.string (base64.encode layout.windowLayout))
    |>.set "enables".toList (.table (enablesTable layout.showFlags))

def layoutsTable (data : LayoutManagerData) : TomlTable TomlValue :=
  let entries := data.layouts.toList.map fun (layoutName, layout) =>
    TomlValue.table (layoutEntry base64 layoutName layout)
  TomlTable.empty.set "last_layout".toList (.string data.lastLayout)
    |>.set "layout".toList (.array entries)

def layout_manager_save_layouts_file (p : LayoutProcess Contents) : LayoutProcess Contents :=
  if p.LayoutData.layoutSettingsPath.isEmpty then p
  else
    let values := toml.print (.table (layoutsTable base64 p.LayoutData))
    { p with files := Function.update p.files p.LayoutData.layoutSettingsPath (some values) }

def layout_manager_save_layout (p : LayoutProcess Contents) (layoutName layoutString : Text) :
    LayoutProcess Contents :=
  if layoutName.isEmpty then p
  else
    let layout := p.LayoutData.layouts.getD layoutName {}
    let showFlags := p.LayoutData.mapWindowState.foldl
      (fun showFlags key value => showFlags.insert key (p.visible value.pVisible)) layout.showFlags
    let layouts := p.LayoutData.layouts.insert layoutName
      { windowLayout := layoutString, showFlags }
    layout_manager_save_layouts_file toml base64 { p with LayoutData.layouts := layouts }

/-! ### Windows -/

/-- With the exception of the callback, if there is one. -/
def layout_manager_load_layout (p : LayoutProcess Contents) (layoutName : Text) :
    LayoutProcess Contents × Option Unit :=
  match p.LayoutData.layouts[layoutName]? with
  | none => (p, some ())
  | some info =>
    let visible := info.showFlags.foldl (fun visible key value =>
      match p.LayoutData.mapWindowState[key]? with
      | some found => Function.update visible found.pVisible value
      | none => visible) p.visible
    ({ p with LayoutData.lastLayout := layoutName, visible, calls := p.calls ++ [info] },
      p.LayoutData.loadCB info)

def layout_manager_register_window (p : LayoutProcess Contents) (key name : Text)
    (showState : Nat) : LayoutProcess Contents :=
  { p with LayoutData.mapWindowState :=
      p.LayoutData.mapWindowState.insert key { name, pVisible := showState } }

end MUtils
