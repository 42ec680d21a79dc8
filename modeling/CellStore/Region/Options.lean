import CellStore.Bytes
import CellStore.Settings
import CellStore.Text.Utf8

namespace CellStore

structure ScanOptions where
  /-- How many versions of a column are returned, the newest first; 0 returns all. -/
  maxVersions : Nat
  /-- The first row; when it is empty, the first one there is. -/
  startRow : Bytes
  /-- The row to stop before; when it is empty, there is none. -/
  stopRow : Bytes
  deriving DecidableEq

namespace ScanOptions

def isPastStop (options : ScanOptions) (row : Bytes) : Bool :=
  options.stopRow ≠ [] && compare row options.stopRow ≠ .lt

def ofRow (row : Bytes) (maxVersions : Nat) : ScanOptions := ⟨maxVersions, row, row ++ [0]⟩

def maxVersionsSetting : Setting := .ofNumber "riverbed.scan.max.versions" (some 0)
def startRowSetting : Setting := .ofText "riverbed.scan.start.row" (some "")
def stopRowSetting : Setting := .ofText "riverbed.scan.stop.row" (some "")

def ofSettings (settings : Settings) : Except SettingError ScanOptions := do
  settings.validate maxVersionsSetting
  settings.validate startRowSetting
  settings.validate stopRowSetting
  let maxVersions ← (← settings.getOrDefault maxVersionsSetting).toNumber
  let startRow := (← settings.getOrDefault startRowSetting).toText
  let stopRow := (← settings.getOrDefault stopRowSetting).toText
  return ⟨maxVersions, Utf8.encode startRow, Utf8.encode stopRow⟩

end ScanOptions

end CellStore
