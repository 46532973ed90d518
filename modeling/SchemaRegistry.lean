import SchemaRegistry.Acyclicity
import SchemaRegistry.Backup.RoundTrip
import SchemaRegistry.ChangeLog
import SchemaRegistry.Containers
import SchemaRegistry.Exporter.Chains
import SchemaRegistry.Exporter.Managed
import SchemaRegistry.Finding
import SchemaRegistry.HashInputs
import SchemaRegistry.HashOrder
import SchemaRegistry.Isolation
import SchemaRegistry.Journal
import SchemaRegistry.JsonSchema.Pairing
import SchemaRegistry.Labels
import SchemaRegistry.Levels
import SchemaRegistry.Lifecycle
import SchemaRegistry.Migration
import SchemaRegistry.Patterns
import SchemaRegistry.Proto.PrintedNames
import SchemaRegistry.Proto.Scanning
import SchemaRegistry.Proto.Shortcut
import SchemaRegistry.Proxy.Delivery
import SchemaRegistry.Referrers
import SchemaRegistry.Reload
import SchemaRegistry.RuleSets
import SchemaRegistry.Serial
import SchemaRegistry.UrlForms
import SchemaRegistry.Visibility
