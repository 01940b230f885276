import Pagewright.Path

/-! Media types of files, by the extensions of their names. -/

namespace Pagewright.Editor

def mediaTypes : List (String × String) := [
  ("html", "text/html"), ("htm", "text/html"), ("css", "text/css"),
  ("js", "text/javascript"), ("mjs", "text/javascript"), ("json", "application/json"),
  ("map", "application/json"), ("txt", "text/plain"), ("text", "text/plain"),
  ("log", "text/plain"), ("md", "text/markdown"), ("csv", "text/csv"), ("xml", "text/xml"),
  ("toml", "text/x-toml"), ("yaml", "text/x-yaml"), ("yml", "text/x-yaml"),
  ("xhtml", "application/xhtml+xml"), ("png", "image/png"), ("jpg", "image/jpeg"),
  ("jpeg", "image/jpeg"), ("gif", "image/gif"), ("svg", "image/svg+xml"),
  ("ico", "image/x-icon"), ("webp", "image/webp"), ("avif", "image/avif"),
  ("bmp", "image/bmp"), ("woff", "font/woff"), ("woff2", "font/woff2"), ("ttf", "font/ttf"),
  ("otf", "font/otf"), ("pdf", "application/pdf"), ("zip", "application/zip"),
  ("gz", "application/gzip"), ("wasm", "application/wasm"), ("mp3", "audio/mpeg"),
  ("wav", "audio/wav"), ("ogg", "audio/ogg"), ("mp4", "video/mp4"), ("webm", "video/webm"),
  ("webmanifest", "application/manifest+json"), ("rtf", "application/rtf"),
  ("rs", "text/x-rust"), ("sh", "application/x-sh")]

def bytesType : String := "application/octet-stream"

/-- The type of a file. The case of its extension does not count. -/
def mediaType (path : Path) : String :=
  match path.extension? with
  | none => bytesType
  | some extension => (mediaTypes.lookup extension.toLower).getD bytesType

end Pagewright.Editor
