import Pagewright.Config

/-! Scaffolding a project: its directories, a settings file that names the defaults, and a first
page. What is there already is kept unless it may be overwritten. -/

namespace Pagewright.Command

open Files

/-- The first settings file. -/
def settingsLines : List String := [
  "# cwrap configuration",
  "",
  "[project]",
  "# Route directories, one skeleton.json each",
  "routes = \"routes\"",
  "",
  "# Output directory for compiled pages",
  "output = \"build\"",
  "",
  "# Assets mirrored to <output>/static",
  "static_dir = \"static\"",
  "",
  "# Directory that may hold a custom cwrapFunctions.js",
  "scripts = \"scripts\"",
  "",
  "# Blueprint index placeholder",
  "placeholder = \"cwrapIndex\"",
  "",
  "[server]",
  "port = 36969",
  "host = \"127.0.0.1\"",
  "open = true"]

/-- The first page. -/
def pageLines : List String := [
  "\x7b",
  "  \"element\": \"body\",",
  "  \"style\": \"margin: 0; font-family: var(--font);\",",
  "  \"head\": \x7b",
  "    \"title\": \"Welcome\",",
  "    \"meta\": [",
  "      \x7b \"name\": \"viewport\", \"content\": \"width=device-width, initial-scale=1\" \x7d",
  "    ]",
  "  \x7d,",
  "  \"root\": \x7b",
  "    \"--font\": \"system-ui, sans-serif\",",
  "    \"--accent\": \"#3b6ea5\"",
  "  \x7d,",
  "  \"classroom\": [",
  "    \x7b",
  "      \"type\": \"class\",",
  "      \"name\": \"card\",",
  "      \"style\": \"padding: 1rem; border: 1px solid var(--accent);\",",
  "      \"mediaQueries\": [",
  "        \x7b \"query\": \"max-width: 600px\", \"style\": \"padding: 0.5rem;\" \x7d",
  "      ]",
  "    \x7d",
  "  ],",
  "  \"children\": [",
  "    \x7b",
  "      \"element\": \"main\",",
  "      \"style\": \"display: grid; gap: 1rem;\",",
  "      \"mediaQueries\": [",
  "        \x7b \"query\": \"min-width: 800px\", \"style\": \"grid-template-columns: repeat(3, 1fr);\" \x7d",
  "      ],",
  "      \"children\": [",
  "        \x7b",
  "          \"element\": \"h1\",",
  "          \"text\": \"Hello from cwrap\"",
  "        \x7d,",
  "        \x7b",
  "          \"element\": \"div\",",
  "          \"style\": \"display: contents;\",",
  "          \"blueprint\": \x7b",
  "            \"count\": 3,",
  "            \"element\": \"div\",",
  "            \"class\": \"card\",",
  "            \"text\": \"Card cwrapIndex+1\",",
  "            \"attributes\": \x7b \"id\": \"card-cwrapIndex\" \x7d",
  "          \x7d",
  "        \x7d",
  "      ]",
  "    \x7d,",
  "    \x7b",
  "      \"element\": \"footer\",",
  "      \"extend\": [",
  "        \x7b \"extension\": \":hover\", \"style\": \"color: var(--accent);\" \x7d",
  "      ],",
  "      \"text\": \"Built with cwrap\"",
  "    \x7d",
  "  ]",
  "\x7d"]

def unlines (lines : List String) : String := String.join (lines.map (· ++ "\n"))

/-- Writes a text where there is nothing yet, or where it may replace what is there. -/
def writeNew (overwrite : Bool) (path : Path) (text : String) : OnDisk FileError Unit := do
  if overwrite || !(← get).contains path then writeText path text

/-- Makes a project beside a settings file. A routes directory that is there already stops it,
unless everything may be overwritten. -/
def scaffold (settings : Path) (overwrite : Bool) : OnDisk String Unit := do
  let root := projectDirectory settings
  let routes := root.join ⟨"routes"⟩
  if (← get).contains routes then
    if !overwrite then return ()
  else
    (makeDirectories routes).withError fun _ => "Failed to create routes directory"
  (writeNew overwrite settings (unlines settingsLines)).withError fun _ =>
    "Failed to write " ++ settings.text
  (writeNew overwrite (routes.join ⟨Site.skeletonName⟩) (unlines pageLines)).withError fun _ =>
    "Failed to write skeleton.json"
  let static := root.join ⟨"static"⟩
  unless (← get).contains static do
    (makeDirectories static).withError fun _ => "Failed to create static directory"

end Pagewright.Command
